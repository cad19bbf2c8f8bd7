import Bitemporal.Proofs.Identity
import Bitemporal.Proofs.Master.Faults
import Bitemporal.Proofs.Master.Step

/-!
# Every record that is written has a text of its own

A master creates an object under its own scheme, which was checked with the settings, or under an
identity that was checked with the request, and writes no unknown object otherwise.  So every
object of its store is legible (`Store.Legible`), and with it every record, since a timeline
numbers its records in decimal.
-/

namespace Bitemporal

variable {α : Type}

/-- The scheme of good settings is a part of an identity. -/
theorem Config.isIdPart_scheme {c : Config} (valid : c.validate = .ok ()) :
    IsIdPart c.scheme := by
  rw [← isIdPart_iff, isIdPart]
  unfold validate defect? at valid
  by_cases empty : c.scheme.toList.isEmpty
  · simp [empty] at valid
  · by_cases separated : c.scheme.toList.contains idSeparator
    · rw [if_neg empty, if_pos separated] at valid
      cases valid
    · rw [Bool.not_eq_true] at empty separated
      rw [empty, separated]
      rfl

namespace Store

variable {s : Store α} {object : ObjectId}

/-- The text of every known object is read back. -/
def Legible (s : Store α) : Prop := ∀ object, s.contains object = true → object.Legible

theorem Legible.empty : (Store.empty : Store α).Legible := by
  intro object known
  simp [Store.contains, Store.empty, timeline?] at known

/-- The records of legible objects have legible identities. -/
theorem Sound.legible_id (sound : s.Sound) (legible : s.Legible) {r : Record α}
    (stored : r ∈ (s.lineage object).records) : r.id.Legible := by
  obtain ⟨p, found⟩ := List.mem_iff_getElem?.mp stored
  rw [(sound.lineage_sound object).id_eq found, sound.lineage_object]
  exact ObjectId.legible_atVersion (legible object (contains_of_mem stored)) p

end Store

namespace Edit.Commits

variable {m m' : Master (Store α)} {e : Edit α} {plan : Plan α} {b : Batch α} {tl : Timeline α}
  {shown : List (Record α)}

/-- What is committed is an edit of a legible object, or of one that is known already. -/
theorem legible_or_known (commits : Commits m e plan b tl shown m') (sound : m.store.Sound)
    (scheme : IsIdPart m.config.scheme) :
    (e.object m.config).Legible ∨ m.store.contains (e.object m.config) = true := by
  have drafted := commits.drafted
  have forKnown {id : RecordId} {replacements : Record α → List (Replacement α)}
      {draft : List (Record α) × Plan α}
      (drafted : draftFor m.store id replacements = .ok draft) :
      m.store.contains id.object = true := by
    rcases Program.exists_of_bind_eq_ok drafted with ⟨record, found, -⟩
    exact Store.contains_of_mem (sound.record_eq_ok_iff.mp found).1
  cases e with
  | add drawn payload start stop => exact .inl (ObjectId.legible_generate scheme drawn)
  | addWithId object payload version =>
    exact .inl (ObjectId.validate_eq_ok_iff.mp commits.prechecked)
  | replaceVersions object target replacements => exact .inr (contains_of_draftOn drafted)
  | replaceVersion id replacements => exact .inr (forKnown drafted)
  | splice object replacements => exact .inr (contains_of_draftOn drafted)
  | update object payload start => exact .inr (contains_of_draftOn drafted)
  | correct id payload => exact .inr (forKnown drafted)
  | remove object stop => exact .inr (contains_of_draftOn drafted)

/-- An edit adds no object that is not legible. -/
theorem legible (commits : Commits m e plan b tl shown m') (sound : m.store.Sound)
    (scheme : IsIdPart m.config.scheme) (legible : m.store.Legible) : m'.store.Legible := by
  intro object known
  rw [commits.store_eq, Store.contains_committed] at known
  rcases known with rfl | known
  · exact (commits.legible_or_known sound scheme).elim id (legible _)
  · exact legible object known

end Edit.Commits

namespace Master

/-- The texts of objects and of records are exact formats, of two parts and of three.  Whatever a
master with good settings over the empty store was asked, and by whatever clock: the identity of
every record that it ever wrote is read back from its text, and no two records share a text. -/
theorem identities_exact {config : Config} (valid : config.validate = .ok ()) (start : Instant)
    (script : List (Instant × Request α)) :
    let m : Master (Store α) := (opened config start).after script
    ExactFormat 2 ObjectId.text ObjectId.ofText ObjectId.Legible ∧
    (∀ o : ObjectId, o.validate = .ok () ↔ o.Legible) ∧
    ExactFormat 3 RecordId.text RecordId.ofText RecordId.Legible ∧
    (∀ object, ∀ r ∈ (m.store.lineage object).records, RecordId.ofText r.id.text = .ok r.id) ∧
    ∀ (object object' : ObjectId) (p p' : Nat) (r r' : Record α),
      (m.store.lineage object).records[p]? = some r →
      (m.store.lineage object').records[p']? = some r' →
      r.id.text = r'.id.text → object = object' ∧ p = p' := by
  intro m
  have sound₀ : (opened config start : Master (Store α)).Sound := .opened config start
  have sound : m.store.Sound := (sound₀.after script).1.store
  have legible : m.store.Legible :=
    sound₀.after_induction_of_config (P := Store.Legible) rfl .empty
      (fun sound settings legible commits =>
        commits.legible sound.store (settings ▸ Config.isIdPart_scheme valid) legible) script
  have format := RecordId.exactFormat
  refine ⟨ObjectId.exactFormat, fun o => ObjectId.validate_eq_ok_iff, format,
    fun object r stored => ?_, fun object object' p p' r r' left right same => ?_⟩
  · exact (format.read_text_iff r.id).mpr (sound.legible_id legible stored)
  · have ids : r.id = r'.id := by
      refine format.injective r.id r'.id ?_ ?_ same
      · exact sound.legible_id legible (List.mem_of_getElem? left)
      · exact sound.legible_id legible (List.mem_of_getElem? right)
    have objects : object = object' := by
      rw [(sound.lineage_sound object).id_eq left, (sound.lineage_sound object').id_eq right,
        sound.lineage_object, sound.lineage_object] at ids
      exact congrArg RecordId.object ids
    subst objects
    exact ⟨rfl, (sound.lineage_sound object).toIndexed.position_eq left right ids⟩

/-- Beside a loan under an identity of its own, a document is added under an
identity that is drawn. -/
theorem identities_exact_loanScript :
    let script : List (Instant × Request String) :=
      loanScript ⟨5, by decide⟩ ++ [(⟨6, by decide⟩, .edit (.add (.ofNat 7) "4000" .epoch none))]
    let m : Master (Store String) := (opened .default .epoch).after script
    Config.default.validate = .ok () ∧
      (∃ r ∈ (m.store.lineage loan).records, r.id.text = "loan~7~0" ∧
        RecordId.ofText "loan~7~0" = .ok r.id) ∧
      ∃ r ∈ (m.store.lineage (.generate "DbDoc" (.ofNat 7))).records,
        r.id.text = "DbDoc~00000000000000000000000000000007~0" ∧
        RecordId.ofText r.id.text = .ok r.id := by
  intro script m
  have valid : Config.default.validate = .ok () := by decide
  have written :
      (⟨loan.atVersion "0", .openFrom .epoch, .openFrom ⟨5, by decide⟩, "4000"⟩ : Record String) ∈
        (m.store.lineage loan).records := by decide
  have drawn :
      (⟨(ObjectId.generate "DbDoc" (.ofNat 7)).atVersion "0", .openFrom .epoch,
        .openFrom ⟨6, by decide⟩,
      "4000"⟩ : Record String) ∈ (m.store.lineage (.generate "DbDoc" (.ofNat 7))).records := by
        decide
  rcases identities_exact valid .epoch script with ⟨-, -, -, reads, -⟩
  exact ⟨valid, ⟨_, written, by decide, reads loan _ written⟩,
    ⟨_, drawn, by decide, reads _ _ drawn⟩⟩

end Master

end Bitemporal
