import Code2Cloud.Worker.Deploy

/-!
# Isolation of projects

When the worker keeps two projects apart: their objects have different names of
every kind, so that deploying one leaves the other's objects alone, and the network
policy of one neither governs nor admits the pods of the other.
-/

namespace Code2Cloud
namespace Worker

open GoString Segments

/-! ## Image repositories -/

/-- A byte of a project name, once lower-cased, is one that `sanitizeName` copies. -/
theorem utf8EncodeChar_nameChar {c : Char} (h : (c.isAlphanum || c == '-') = true) :
    ∃ b, String.utf8EncodeChar c = [b] ∧ b.toNat < 0x80 ∧
      (isNameByte (lowerByte b) = true ∨ lowerByte b = dash) := by
  have hrange : (65 ≤ c.toNat ∧ c.toNat ≤ 90) ∨ (97 ≤ c.toNat ∧ c.toNat ≤ 122) ∨
      (48 ≤ c.toNat ∧ c.toNat ≤ 57) ∨ c.toNat = 45 := by
    rw [Bool.or_eq_true, Case.isAlphanum_iff, beq_iff_eq] at h
    rcases h with ((h | h) | h) | rfl
    · exact Or.inl h
    · exact Or.inr (Or.inl h)
    · exact Or.inr (Or.inr (Or.inl h))
    · exact Or.inr (Or.inr (Or.inr rfl))
  have hval : c.val.toNat = c.toNat := rfl
  have hsize : c.utf8Size = 1 := by
    rw [Char.utf8Size_eq_one_iff, UInt32.le_iff_toNat_le]
    change c.val.toNat ≤ 127
    omega
  have hbyte : c.val.toUInt8.toNat = c.toNat := by
    rw [UInt32.toNat_toUInt8, hval]
    omega
  refine ⟨c.val.toUInt8, String.utf8EncodeChar_eq_singleton hsize, by omega, ?_⟩
  simp only [isNameByte, lowerByte, isUpper, isLower, isDigit, dash, Bool.or_eq_true,
    Bool.and_eq_true, decide_eq_true_eq, UInt8.le_iff_toNat_le, ← UInt8.toNat_inj]
  split <;> simp_all <;> omega

theorem bytes_projectName (n : Api.ProjectName) {b : UInt8} (hb : b ∈ utf8 n.val) :
    b.toNat < 0x80 ∧ (isNameByte (lowerByte b) = true ∨ lowerByte b = dash) := by
  have hchars : ∀ c ∈ n.val.toList, (c.isAlphanum || c == '-') = true := by
    have h := n.property
    simp only [Api.acceptsProjectName, Bool.and_eq_true, List.all_eq_true] at h
    exact h.2
  obtain ⟨c, hc, hcb⟩ := List.mem_flatMap.mp hb
  obtain ⟨d, hd, hkeep⟩ := utf8EncodeChar_nameChar (hchars c hc)
  rw [hd, List.mem_singleton] at hcb
  exact hcb ▸ hkeep

theorem toLower_projectName (n : Api.ProjectName) :
    toLower (utf8 n.val) = (utf8 n.val).map lowerByte :=
  toLower_of_ascii fun _ hb => (bytes_projectName n hb).1

theorem sanitizeName_projectName (n : Api.ProjectName) :
    sanitizeName (utf8 n.val) = toLower (utf8 n.val) := by
  refine List.filterMap_eq_map_iff_forall_eq_some.mpr ?_ |>.trans (List.map_id _)
  intro b hb
  rw [toLower_projectName] at hb
  obtain ⟨b', hb', rfl⟩ := List.mem_map.mp hb
  rcases (bytes_projectName n hb').2 with hkeep | hkeep
  · rw [isNameByte] at hkeep
    simp [hkeep]
  · simp [hkeep]

/-! ## Isolation -/

namespace Client

/-- A run of some stages of `Client.Deploy`, those before a failure for instance. -/
def applyStages (baseDomain : GoString) (opts : DeployOptions) (stages : List DeployStage)
    (cl : Cluster) : Cluster :=
  stages.foldl (fun cl stage => (object baseDomain opts stage).elim cl cl.apply) cl

theorem same_applyStages {baseDomain : GoString} {opts : DeployOptions} {kind : Kind}
    {n : GoString} (h : objectName kind opts.projectName ≠ n) (stages : List DeployStage)
    (cl : Cluster) : cl.Same (applyStages baseDomain opts stages cl) kind n := by
  induction stages generalizing cl with
  | nil => exact Cluster.Same.refl cl kind n
  | cons stage stages ih =>
    have hrest := ih ((object baseDomain opts stage).elim cl cl.apply)
    have hstage : cl.Same ((object baseDomain opts stage).elim cl cl.apply) kind n := by
      cases ho : object baseDomain opts stage with
      | none => exact Cluster.Same.refl cl kind n
      | some o =>
        refine Cluster.same_apply cl o fun hk => ?_
        rw [object_name ho, hk]
        exact h
    exact hstage.trans hrest

end Client

/-- The worker keeps the projects called `a` and `b` apart. -/
structure Isolated (a b : GoString) : Prop where
  names : ∀ kind, Client.objectName kind a ≠ Client.objectName kind b
  image : sanitizeName a ≠ sanitizeName b
  deploy : ∀ baseDomain (opts : DeployOptions) stages (cl : Cluster) kind, opts.projectName = a →
    cl.Same (Client.applyStages baseDomain opts stages cl) kind (Client.objectName kind b)
  policy : ∀ opts opts' : DeployOptions, opts.projectName = a → opts'.projectName = b →
    ¬(Client.networkPolicy opts).selects (Client.deployment opts').app ∧
      ¬(Client.networkPolicy opts).admits (Client.deployment opts').app

theorem isolated_of_stem_ne {a b : Api.ProjectName}
    (h : stem (utf8 a.val) ≠ stem (utf8 b.val)) : Isolated (utf8 a.val) (utf8 b.val) := by
  have hnames : ∀ kind, Client.objectName kind (utf8 a.val) ≠ Client.objectName kind (utf8 b.val) :=
    fun kind hk => h (stem_eq_of_objectName_eq hk)
  refine ⟨hnames, fun himage => ?_, ?_, ?_⟩
  · rw [sanitizeName_projectName, sanitizeName_projectName] at himage
    exact h (by rw [stem, stem, label, label, himage])
  · intro baseDomain opts stages cl kind hopts
    exact Client.same_applyStages (hopts ▸ hnames kind) stages cl
  · intro opts opts' hopts hopts'
    have hk8s : sanitizeK8sName opts.projectName ≠ sanitizeK8sName opts'.projectName := by
      rw [hopts, hopts']
      exact hnames .deployment
    refine ⟨hk8s, fun hmem => hk8s ?_⟩
    simpa [NetworkPolicyObject.admits, Client.networkPolicy, Client.deployment, eq_comm] using hmem

/-- The worker keeps two projects apart exactly when their labels still differ after
the cut at 56 bytes. -/
theorem isolated_iff_stem_ne (a b : Api.ProjectName) :
    Isolated (utf8 a.val) (utf8 b.val) ↔ stem (utf8 a.val) ≠ stem (utf8 b.val) :=
  ⟨fun h hstem => h.names .networkPolicy (buildPolicyName_inj.mpr hstem), isolated_of_stem_ne⟩

/-- Names that differ in case only are not kept apart. -/
theorem not_isolated_of_case :
    ¬∀ a b : Api.ProjectName, a ≠ b → Isolated (utf8 a.val) (utf8 b.val) := by
  intro h
  have hApp := h ⟨"App", by decide⟩ ⟨"app", by decide⟩ (by decide)
  exact hApp.names .deployment (by decide)

end Worker
end Code2Cloud
