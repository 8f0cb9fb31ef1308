import Code2Cloud.Worker.Isolation

/-!
# Image repositories

When the repository that `processJob` names after a project is one that a registry accepts.
-/

namespace Code2Cloud
namespace Worker

open GoString Segments

/-- A separator of a path component: a dot, one or two underscores, or dashes. -/
inductive IsSeparator : GoString → Prop
  | dot : IsSeparator [0x2e]
  | underscore : IsSeparator [0x5f]
  | underscores : IsSeparator [0x5f, 0x5f]
  | dashes (n : Nat) : IsSeparator (List.replicate (n + 1) dash)

/-- A component of an image's path: `[a-z0-9]+((\.|_|__|-+)[a-z0-9]+)*`. -/
abbrev IsPathComponent (s : GoString) : Prop := Separated isNameByte IsSeparator s

def Undashed (s : GoString) : Prop := s.head? ≠ some dash ∧ s.getLast? ≠ some dash

instance (s : GoString) : Decidable (Undashed s) := instDecidableAnd

theorem lowerByte_eq_dash_iff {b : UInt8} : lowerByte b = dash ↔ b = dash := by
  rw [lowerByte]
  split
  · rename_i hupper
    refine iff_of_false (fun h => ?_) ?_
    · simp only [isUpper, Bool.and_eq_true, decide_eq_true_eq, UInt8.le_iff_toNat_le] at hupper
      have hb : (b + 0x20).toNat = 0x2d := congrArg UInt8.toNat h
      rw [UInt8.toNat_add] at hb
      change 65 ≤ b.toNat ∧ b.toNat ≤ 90 at hupper
      change (b.toNat + 32) % 256 = 45 at hb
      omega
    · rintro rfl
      exact absurd hupper (by decide)
  · exact Iff.rfl

theorem undashed_map_lowerByte {s : GoString} : Undashed (s.map lowerByte) ↔ Undashed s := by
  have hend (o : Option UInt8) : o.map lowerByte ≠ some dash ↔ o ≠ some dash := by
    cases o with
    | none => exact Iff.rfl
    | some b => rw [Option.map_some, ne_eq, ne_eq, Option.some.injEq, Option.some.injEq,
        lowerByte_eq_dash_iff]
  rw [Undashed, Undashed, List.head?_map, List.getLast?_map, hend, hend]

theorem utf8_projectName_ne_nil (n : Api.ProjectName) : utf8 n.val ≠ [] := by
  have hne : n.val.toList ≠ [] := by
    have h := n.property
    simp only [Api.acceptsProjectName, Bool.and_eq_true, Bool.not_eq_true',
      List.isEmpty_eq_false_iff] at h
    exact h.1
  obtain ⟨c, r, hc⟩ := List.exists_cons_of_ne_nil hne
  intro hnil
  have hbytes : String.utf8EncodeChar c = [] :=
    List.flatMap_eq_nil_iff.mp hnil c (hc ▸ List.mem_cons_self)
  exact String.utf8EncodeChar_ne_nil hbytes

/-- The repository of a project is well formed exactly where the name begins and ends with a letter
or a digit: the dashes at the ends, which `sanitizeK8sName` trims, are kept. -/
theorem isPathComponent_sanitizeName_iff (n : Api.ProjectName) :
    IsPathComponent (sanitizeName (utf8 n.val)) ↔ Undashed (utf8 n.val) := by
  have hlower : sanitizeName (utf8 n.val) = (utf8 n.val).map lowerByte := by
    rw [sanitizeName_projectName, toLower_projectName]
  have hbytes : ∀ b ∈ sanitizeName (utf8 n.val), isNameByte b = true ∨ b = dash := by
    rw [hlower]
    intro b hb
    obtain ⟨b', hb', rfl⟩ := List.mem_map.mp hb
    exact (bytes_projectName n hb').2
  have hne : sanitizeName (utf8 n.val) ≠ [] := by
    rw [hlower]
    simpa using utf8_projectName_ne_nil n
  have hend {o : Option UInt8} (ho : o.isSome = true) :
      (∃ c, o = some c ∧ c ≠ dash) ↔ o ≠ some dash := by
    obtain ⟨c, rfl⟩ := Option.isSome_iff_exists.mp ho
    simp
  rw [IsPathComponent, separated_iff isNameByte_dash IsSeparator.dashes hbytes,
    hend (by simpa using hne), hend (by simpa using hne), ← Undashed, hlower,
    undashed_map_lowerByte]

/-- A dash is a project name, and its repository is a dash. -/
theorem not_isPathComponent_sanitizeName :
    ¬∀ n : Api.ProjectName, IsPathComponent (sanitizeName (utf8 n.val)) := by
  intro h
  obtain ⟨c, hc, hkeep⟩ := (h ⟨"-", by decide⟩).head
  have hdash : (sanitizeName (utf8 "-")).head? = some dash := by decide
  rw [hdash, Option.some.injEq] at hc
  subst hc
  exact absurd hkeep (by decide)

end Worker
end Code2Cloud
