import LoadGen.Proofs.Initial
import LoadGen.Proofs.Numerals

namespace LoadGen

/-- The text of a signed word in another spelling than the usual one. -/
def Text.RespelledWord (s : String) : Prop := ∃ i : Int, readSigned s = .ok i ∧ Respelled s.toList

namespace Step
open Text

theorem valueOf_of_ok {s : String} {i : Int} (h : readSigned s = .ok i) : valueOf s = .int i := by
  rw [valueOf, h]

theorem shown_valueOf_iff (s : String) : (valueOf s).shown = s ↔ ¬ RespelledWord s := by
  cases h : readSigned s with
  | ok i =>
    have numeral := (readSigned_eq_ok.mp h).1
    rw [valueOf_of_ok h, ← String.toList_inj, numeral.shown_eq_iff]
    exact not_congr ⟨fun respelled => ⟨i, h, respelled⟩, fun ⟨_, _, respelled⟩ => respelled⟩
  | error e =>
    have same : valueOf s = .text s := by rw [valueOf, h]
    rw [same]
    exact iff_of_true rfl fun ⟨i, ok, _⟩ => by rw [h] at ok; cases ok

theorem build_set {params : Dict String} {var text : String} (hvar : params.get? "var" = some var)
    (htext : params.get? "value" = some text) :
    Catalog.builtIn.build "set" params = .ok (.set var (valueOf text)) := by
  have maker : Catalog.builtIn.makers.get? "set" = some Step.ofSet := by rfl
  rw [Catalog.build, maker]
  simp only [ofSet, required, hvar, htext]
  rfl

end Step

namespace Runner
variable {r : Runner} {run : Run} {s : Session} {params : Dict String} {var text : String}

theorem session?_modifySession (hs : r.session? run.session = some s) (f : Session → Session) :
    (r.modifySession run.session f).session? run.session = some (f s) := by
  have there : r.sessions[run.session]? = some s := hs
  simp [session?, modifySession, there]

theorem var?_set (hs : r.session? run.session = some s) (var : String) (value : Value)
    (name : String) :
    (r.takeStep run (.set var value)).2.var? run.session name =
      if name = var then some value else r.var? run.session name := by
  rw [takeStep, var?, var?, session?_modifySession hs, hs, Option.bind_some, Option.bind_some]
  split
  · rename_i he
    rw [he, Dict.get?_insert_self]
  · rename_i hne
    rw [Dict.get?_insert_of_ne hne]

theorem act_log (r : Runner) (run : Run) (message : String) (vars : List String) :
    r.act run (.run (.log message vars)) =
      (.done, r.log (.logged (Text.fill message (vars.map fun name =>
        ((r.var? run.session name).map Value.shown).getD "<not set>")))) := rfl

/-- The step that is made of a variable and a text sets the variable, and nothing else, to a value
that is shown as the text, unless the text is a signed word in another spelling than the usual one;
and what is shown of a signed word is the usual spelling of the same number. A message shows for this
variable what is shown of the value. -/
theorem text_set_shown (hvar : params.get? "var" = some var)
    (htext : params.get? "value" = some text) (hs : r.session? run.session = some s) :
    ∃ r' x, r.act run (.build "set" params) = (.done, r') ∧
      r'.var? run.session var = some x ∧
      (x.shown = text ↔ ¬ Text.RespelledWord text) ∧
      (∀ i, Text.readSigned text = .ok i →
        x = .int i ∧ Text.Numeral x.shown.toList i ∧ ¬ Text.Respelled x.shown.toList) ∧
      (∀ name, name ≠ var → r'.var? run.session name = r.var? run.session name) ∧
      ∀ message vars, r'.act run (.run (.log message vars)) =
        (.done, r'.log (.logged (Text.fill message (vars.map fun name =>
          if name = var then x.shown
          else ((r.var? run.session name).map Value.shown).getD "<not set>")))) := by
  have vars := var?_set hs var (Step.valueOf text)
  refine ⟨(r.takeStep run (.set var (Step.valueOf text))).2, Step.valueOf text, ?made,
    (vars var).trans (if_pos rfl), Step.shown_valueOf_iff text, fun i hi => ?number,
    fun name hne => (vars name).trans (if_neg hne), fun message names => ?logged⟩
  case made =>
    simp only [act, Step.build_set hvar htext]
    rfl
  case number =>
    rw [Step.valueOf_of_ok hi]
    exact ⟨rfl, Text.numeral_shown i⟩
  case logged =>
    have values : ∀ name : String,
        (((r.takeStep run (.set var (Step.valueOf text))).2.var? run.session name).map
          Value.shown).getD "<not set>" =
        if name = var then (Step.valueOf text).shown
        else ((r.var? run.session name).map Value.shown).getD "<not set>" := by
      intro name
      rw [vars]
      split <;> rfl
    rw [act_log]
    simp only [values]

def lone : Runner := { gateRunner with sessions := [{ group := "users", executor := 0 }] }

def loneRun : Run := { id := 0, session := 0, phase := "login" }

/-- The least signed word in its usual spelling is shown as it is. -/
theorem least_word_shown :
    let params : Dict String := .ofList [("var", "n"), ("value", "-9223372036854775808")]
    ∃ r' x, lone.act loneRun (.build "set" params) = (.done, r') ∧
      r'.var? 0 "n" = some x ∧ x.shown = "-9223372036854775808" := by
  intro params
  have usual : ¬ Text.RespelledWord "-9223372036854775808" := by
    rintro ⟨i, _, ⟨_, he⟩ | ⟨_, _, he⟩ | ⟨_, he⟩⟩ <;> simp at he
  have hvar : params.get? "var" = some "n" := rfl
  have htext : params.get? "value" = some "-9223372036854775808" := rfl
  have hs : lone.session? loneRun.session = some { group := "users", executor := 0 } := rfl
  obtain ⟨r', x, made, there, shown, _⟩ := text_set_shown hvar htext hs
  exact ⟨r', x, made, there, shown.mpr usual⟩

/-- A number with a plus sign is shown without it, one with zeros in front without these, and minus
zero as zero. -/
theorem respelled_words_changed :
    ["+5", "007", "-0"].map (fun text =>
      ((lone.act loneRun (.build "set" (.ofList [("var", "n"), ("value", text)]))).2.var? 0 "n").map
        Value.shown) =
      [some "5", some "7", some "0"] := by
  decide +kernel

end Runner
end LoadGen
