import Code2Cloud.Base.Segments
import Code2Cloud.Worker.GoString

/-!
# Cluster names

The names under which the worker writes and deletes a project's objects.  Every
one is a cut of one text, the project's label: the lower-cased name with a single
dash for each run of other characters and a letter in front.
-/

namespace Code2Cloud
namespace Worker

open GoString Segments

/-- A byte `sanitizeK8sName` copies. -/
def isNameByte (c : UInt8) : Bool := isLower c || isDigit c

/-- The loop of `sanitizeK8sName`: stop at 63 bytes. -/
def k8sNameLoop : GoString → GoString → Bool → GoString
  | [], result, _ => result
  | c :: name, result, lastWasDash =>
    if result.length < 63 then
      if isNameByte c then k8sNameLoop name (result ++ [c]) false
      else if !lastWasDash then k8sNameLoop name (result ++ [dash]) true
      else k8sNameLoop name result lastWasDash
    else result

/-- The last two steps of `sanitizeK8sName`: start with a letter, and be nonempty. -/
def startWithLetter (result : GoString) : GoString :=
  let result := if result.head?.any isDigit then 0x61 :: result else result
  if result.isEmpty then utf8 "app" else result

def sanitizeK8sName (name : GoString) : GoString :=
  startWithLetter ((k8sNameLoop (toLower name) [] true).rdropWhile (· == dash))

def buildNameWithSuffix (base suffix : GoString) : GoString :=
  let base := if base.isEmpty then utf8 "app" else base
  let maxLen := 63
  if base.length + suffix.length ≤ maxLen then
    trimSuffix base [dash] ++ suffix
  else
    let trimLen : Int := maxLen - suffix.length
    if trimLen < 1 then suffix.drop (suffix.length - maxLen)
    else
      let trimmed := trimSuffix (base.take trimLen.toNat) [dash]
      let trimmed := if trimmed.isEmpty then utf8 "app" else trimmed
      trimmed ++ suffix

/-- `s[low:high]`, which panics out of range. -/
def slice (s : GoString) (low high : Int) : Option GoString :=
  if 0 ≤ low ∧ low ≤ high ∧ high ≤ s.length then some ((s.take high.toNat).drop low.toNat)
  else none

/-- `buildNameWithSuffix` as far as its slices let it come. -/
def sliceNameWithSuffix (base suffix : GoString) : Option GoString :=
  let base := if base.isEmpty then utf8 "app" else base
  let maxLen : Int := 63
  if base.length + suffix.length ≤ maxLen then some (trimSuffix base [dash] ++ suffix)
  else
    let trimLen := maxLen - suffix.length
    if trimLen < 1 then slice suffix (suffix.length - maxLen) suffix.length
    else
      (slice base 0 trimLen).map fun cut =>
        let trimmed := trimSuffix cut [dash]
        (if trimmed.isEmpty then utf8 "app" else trimmed) ++ suffix

def buildServiceAccountName (appName : GoString) : GoString :=
  buildNameWithSuffix appName (utf8 "-sa")

def buildPolicyName (appName : GoString) : GoString :=
  buildNameWithSuffix appName (utf8 "-netpol")

/-- The image repository: letters, digits and dashes stay, `_` and blanks become
dashes, the rest is dropped. -/
def sanitizeName (name : GoString) : GoString :=
  (toLower name).filterMap fun c =>
    if isLower c || isDigit c || c == dash then some c
    else if c == 0x5f || c == 0x20 then some dash
    else none

/-- What every cluster name of a project is cut from. -/
def label (name : GoString) : GoString :=
  startWithLetter (slug isNameByte dash (toLower name))

/-! ## The loop and the label -/

theorem k8sNameLoop_eq (name result : GoString) (lastWasDash : Bool)
    (h : result.length ≤ 63) :
    k8sNameLoop name result lastWasDash =
      (result ++ collapse isNameByte dash name lastWasDash).take 63 := by
  induction name generalizing result lastWasDash with
  | nil => rw [k8sNameLoop, collapse, List.append_nil, List.take_of_length_le h]
  | cons c name ih =>
    rw [k8sNameLoop, collapse]
    by_cases hlen : result.length < 63
    · rw [if_pos hlen]
      by_cases hc : isNameByte c = true
      · rw [if_pos hc, if_pos hc, ih _ _ (by simp; omega)]
        simp
      · rw [if_neg hc, if_neg hc]
        cases lastWasDash with
        | false =>
          rw [if_pos (by decide), if_neg (by decide), ih _ _ (by simp; omega)]
          simp
        | true => rw [if_neg (by decide), if_pos rfl, ih _ _ h]
    · have hfull : result.length = 63 := by omega
      rw [if_neg hlen, List.take_append_of_le_length (by omega),
        List.take_of_length_le (by omega)]

theorem isNameByte_dash : isNameByte dash = false := by decide

theorem sanitizeK8sName_eq (name : GoString) :
    sanitizeK8sName name =
      startWithLetter (clip dash 63 (slug isNameByte dash (toLower name))) := by
  have hspaced := (collapse_spaced isNameByte_dash (toLower name) true).take dash 63
  rw [sanitizeK8sName, k8sNameLoop_eq _ _ _ (by simp), List.nil_append,
    rdropWhile_eq_trimOne dash hspaced, ← clip_collapse isNameByte_dash]
  rfl

/-! ## The shape of a name -/

/-- A cut of a label: it starts with a letter, no two dashes meet and none ends
it. -/
structure WellFormed (s : GoString) : Prop where
  letter : ∃ c r, s = c :: r ∧ isLower c = true
  spaced : Spaced dash s
  last : s.getLast? ≠ some dash

theorem ne_dash_of_isLower {c : UInt8} (h : isLower c = true) : c ≠ dash := by
  rintro rfl
  exact absurd h (by decide)

theorem WellFormed.ne_nil {s : GoString} (h : WellFormed s) : s ≠ [] := by
  obtain ⟨c, r, rfl, _⟩ := h.letter
  simp

/-- A text the last two steps of `sanitizeK8sName` may receive. -/
structure Body (s : GoString) : Prop where
  head : ∀ c, s.head? = some c → isNameByte c = true
  spaced : Spaced dash s
  last : s.getLast? ≠ some dash

theorem body_slug (s : GoString) : Body (slug isNameByte dash s) where
  head := fun _ => keep_of_head?_slug isNameByte_dash
  spaced := slug_spaced isNameByte_dash s
  last := getLast?_slug_ne isNameByte_dash s

theorem Body.clip {s : GoString} (h : Body s) (n : Nat) : Body (clip dash n s) where
  head := fun c hc => by
    obtain ⟨r, hr⟩ := clip_isPrefix_self dash n s
    refine h.head c ?_
    rw [← hr, List.head?_append, hc, Option.some_or]
  spaced := h.spaced.mono dash (clip_isPrefix_self dash n s)
  last := getLast?_trimOne_ne dash (h.spaced.take dash n)

theorem startWithLetter_nil : startWithLetter [] = utf8 "app" := by decide

theorem startWithLetter_digit {c : UInt8} (h : isDigit c = true) (r : GoString) :
    startWithLetter (c :: r) = 0x61 :: c :: r := by
  simp [startWithLetter, h]

theorem startWithLetter_letter {c : UInt8} (h : isDigit c = false) (r : GoString) :
    startWithLetter (c :: r) = c :: r := by
  simp [startWithLetter, h]

theorem wellFormed_startWithLetter {s : GoString} (h : Body s) :
    WellFormed (startWithLetter s) := by
  cases s with
  | nil =>
    rw [startWithLetter_nil]
    exact ⟨⟨0x61, _, rfl, by decide⟩, by simp only [Spaced]; decide, by decide⟩
  | cons c r =>
    have hc : isNameByte c = true := h.head c rfl
    by_cases hd : isDigit c = true
    · rw [startWithLetter_digit hd]
      refine ⟨⟨0x61, _, rfl, by decide⟩, ?_, by rw [List.getLast?_cons_cons]; exact h.last⟩
      exact List.isChain_cons.mpr ⟨fun y _ hy => absurd hy.1 (by decide), h.spaced⟩
    · have hl : isLower c = true := by simpa [isNameByte, hd] using hc
      rw [startWithLetter_letter (by simpa using hd)]
      exact ⟨⟨c, r, rfl, hl⟩, h.spaced, h.last⟩

theorem wellFormed_label (name : GoString) : WellFormed (label name) :=
  wellFormed_startWithLetter (body_slug _)

theorem wellFormed_sanitizeK8sName (name : GoString) : WellFormed (sanitizeK8sName name) := by
  rw [sanitizeK8sName_eq]
  exact wellFormed_startWithLetter ((body_slug _).clip 63)

/-- Cutting the body first does not show in a shorter cut of the name. -/
theorem clip_startWithLetter {s : GoString} (h : Body s) {n k : Nat} (hn : 0 < n) (hnk : n ≤ k) :
    clip dash n (startWithLetter (clip dash k s)) = clip dash n (startWithLetter s) := by
  obtain ⟨m, rfl⟩ : ∃ m, n = m + 1 := ⟨n - 1, by omega⟩
  obtain ⟨j, rfl⟩ : ∃ j, k = j + 1 := ⟨k - 1, by omega⟩
  cases s with
  | nil => rfl
  | cons c r =>
    have hc : c ≠ dash := by
      rintro rfl
      exact absurd (h.head _ rfl) (by decide)
    have hcut := clip_clip dash h.spaced hnk
    by_cases hd : isDigit c = true
    · have ha : (0x61 : UInt8) ≠ dash := by decide
      have hsmall := clip_clip dash h.spaced (show m ≤ j + 1 by omega)
      rw [clip_cons dash hc] at hsmall ⊢
      rw [startWithLetter_digit hd, startWithLetter_digit hd, clip_cons dash ha,
        clip_cons dash ha, hsmall]
    · rw [clip_cons dash hc] at hcut ⊢
      rw [startWithLetter_letter (by simpa using hd), startWithLetter_letter (by simpa using hd),
        hcut]

theorem clip_sanitizeK8sName (name : GoString) {n : Nat} (hn : 0 < n) (h63 : n ≤ 63) :
    clip dash n (sanitizeK8sName name) = clip dash n (label name) := by
  rw [sanitizeK8sName_eq, label, clip_startWithLetter (body_slug _) hn h63]

/-! ## Names with a suffix -/

theorem trimSuffix_dash (s : GoString) : trimSuffix s [dash] = trimOne dash s := by
  unfold trimSuffix trimOne
  by_cases h : s.getLast? = some dash
  · obtain ⟨r, rfl⟩ := List.getLast?_eq_some_iff.mp h
    simp
  · have hs : ¬[dash] <:+ s := by
      rintro ⟨r, rfl⟩
      simp at h
    rw [if_neg (by rwa [List.isSuffixOf_iff_suffix]), if_neg h]

theorem WellFormed.clip_ne_nil {s : GoString} (h : WellFormed s) {n : Nat} (hn : 0 < n) :
    clip dash n s ≠ [] := by
  obtain ⟨c, r, rfl, hc⟩ := h.letter
  obtain ⟨m, rfl⟩ : ∃ m, n = m + 1 := ⟨n - 1, by omega⟩
  rw [clip_cons dash (ne_dash_of_isLower hc)]
  simp

theorem buildNameWithSuffix_eq {base suffix : GoString} (h : WellFormed base)
    (hs : suffix.length < 63) :
    buildNameWithSuffix base suffix = clip dash (63 - suffix.length) base ++ suffix := by
  have hbase : base.isEmpty = false := by simpa using h.ne_nil
  have htrimLen : (((63 : Nat) : Int) - suffix.length).toNat = 63 - suffix.length := by omega
  simp only [buildNameWithSuffix, hbase, Bool.false_eq_true, if_false, trimSuffix_dash]
  by_cases hlen : base.length + suffix.length ≤ 63
  · rw [if_pos hlen, trimOne_of_getLast?_ne dash h.last,
      clip_of_length_le dash (by omega) h.last]
  · rw [if_neg hlen, if_neg (by omega), htrimLen]
    have hcut : trimOne dash (base.take (63 - suffix.length)) =
        clip dash (63 - suffix.length) base := rfl
    rw [hcut, if_neg (by simpa using h.clip_ne_nil (by omega))]

/-- The slices are in range for every base and every suffix. -/
theorem sliceNameWithSuffix_eq (base suffix : GoString) :
    sliceNameWithSuffix base suffix = some (buildNameWithSuffix base suffix) := by
  unfold sliceNameWithSuffix buildNameWithSuffix
  generalize (if base.isEmpty = true then utf8 "app" else base) = base
  dsimp only
  by_cases hfits : base.length + suffix.length ≤ 63
  · rw [if_pos hfits, if_pos (by omega)]
  rw [if_neg hfits, if_neg (by omega)]
  by_cases hsuffix : (63 : Int) - suffix.length < 1
  · have hlow : ((suffix.length : Int) - 63).toNat = suffix.length - 63 := by omega
    rw [if_pos hsuffix, if_pos (by omega), slice, if_pos (by omega), hlow, Int.toNat_natCast,
      List.take_length]
  · rw [if_neg hsuffix, if_neg (by omega), slice, if_pos (by omega), Option.map_some]
    rfl

theorem buildServiceAccountName_eq (name : GoString) :
    buildServiceAccountName (sanitizeK8sName name) = clip dash 60 (label name) ++ utf8 "-sa" := by
  rw [buildServiceAccountName,
    buildNameWithSuffix_eq (wellFormed_sanitizeK8sName name) (by decide)]
  change clip dash 60 _ ++ _ = _
  rw [clip_sanitizeK8sName name (by omega) (by omega)]

theorem buildPolicyName_eq (name : GoString) :
    buildPolicyName (sanitizeK8sName name) = clip dash 56 (label name) ++ utf8 "-netpol" := by
  rw [buildPolicyName, buildNameWithSuffix_eq (wellFormed_sanitizeK8sName name) (by decide)]
  change clip dash 56 _ ++ _ = _
  rw [clip_sanitizeK8sName name (by omega) (by omega)]

end Worker
end Code2Cloud
