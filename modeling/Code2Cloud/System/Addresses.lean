import Code2Cloud.Api.Projects
import Code2Cloud.Base.Hex
import Code2Cloud.Worker.Domains

/-!
# Generated addresses

The address that a project is given, from the API's `UrlUtils` to the host that the worker routes.
-/

namespace Code2Cloud
namespace System
namespace UrlUtils

open Api.UrlUtils Segments Worker GoString

/-! ## What is left of a text -/

theorem isUrlChar_dash : isUrlChar '-' = false := by decide

theorem collapseDashes_eq {cs : List Char} (h : ∀ c ∈ cs, isUrlChar c = true ∨ c = '-') :
    collapseDashes cs = collapse isUrlChar '-' cs false := by
  fun_induction collapseDashes cs with
  | case1 cs ih =>
    rw [ih fun c hc => h c (List.mem_cons_of_mem _ hc)]
    simp [collapse, isUrlChar_dash]
  | case2 c cs hnot ih =>
    rw [ih fun d hd => h d (List.mem_cons_of_mem _ hd), collapse]
    rcases h c List.mem_cons_self with hc | rfl
    · rw [if_pos hc]
    · rw [isUrlChar_dash]
      cases cs with
      | nil => rfl
      | cons d cs =>
        have hd : isUrlChar d = true := by
          refine (h d (by simp)).resolve_right ?_
          rintro rfl
          exact hnot cs rfl rfl
        simp [collapse, hd]
  | case3 => rfl

theorem collapse_replaceOthers (cs : List Char) (last : Bool) :
    collapse isUrlChar '-' (replaceOthers cs) last = collapse isUrlChar '-' cs last := by
  induction cs generalizing last with
  | nil => rfl
  | cons c cs ih =>
    rw [replaceOthers, List.flatMap_cons, ← replaceOthers]
    by_cases hc : isUrlChar c = true
    · rw [hc, Bool.true_or, if_pos rfl, List.singleton_append, collapse, collapse, if_pos hc,
        if_pos hc, ih]
    · have hdash : ¬isUrlChar '-' = true := by decide
      split
      · rw [List.singleton_append, collapse, collapse, if_neg hc, if_neg hc, ih]
      · split
        · rw [List.singleton_append, collapse, collapse, if_neg hdash, if_neg hc, ih]
        · rw [List.cons_append, List.singleton_append, collapse, if_neg hdash, collapse,
            if_neg hdash, if_pos rfl, collapse, if_neg hc, ih]

theorem trimDashes_collapse (cs : List Char) :
    trimDashes (collapse isUrlChar '-' cs false) = slug isUrlChar '-' cs := by
  have hhead : (if (collapse isUrlChar '-' cs false).head? = some '-' then
      (collapse isUrlChar '-' cs false).tail else collapse isUrlChar '-' cs false) =
        collapse isUrlChar '-' cs true := by
    cases cs with
    | nil => rfl
    | cons c cs =>
      rw [collapse, collapse]
      by_cases hc : isUrlChar c = true
      · have hne : c ≠ '-' := by
          rintro rfl
          exact absurd hc (by decide)
        rw [if_pos hc, if_pos hc, List.head?_cons, if_neg (by simpa using hne)]
      · rw [if_neg hc, if_neg hc]
        rfl
  rw [trimDashes, hhead, ← trimOne_collapse isUrlChar_dash]
  rfl

theorem mem_replaceOthers {cs : List Char} {c : Char} (h : c ∈ replaceOthers cs) :
    isUrlChar c = true ∨ c = '-' := by
  obtain ⟨d, _, hc⟩ := List.mem_flatMap.mp h
  split at hc
  · rename_i hd
    rw [List.mem_singleton.mp hc]
    simpa using hd
  · split at hc
    · exact Or.inr (List.mem_singleton.mp hc)
    · exact Or.inr (by simpa using hc)

/-- What `sanitize` keeps: the runs of letters and digits, in lower case, joined by dashes. -/
theorem toList_sanitize (input : String) :
    (sanitize input).toList = slug isUrlChar '-' (toLowerCase input.toList) := by
  rw [sanitize, String.toList_ofList, collapseDashes_eq fun _ => mem_replaceOthers,
    collapse_replaceOthers, trimDashes_collapse]

theorem mem_slug {cs : List Char} {c : Char} (h : c ∈ slug isUrlChar '-' cs) :
    isUrlChar c = true ∨ c = '-' :=
  mem_collapse isUrlChar '-' ((slug_prefix_collapse isUrlChar_dash cs).subset h)

theorem toNat_isUrlChar {c : Char} (h : isUrlChar c = true ∨ c = '-') : c.toNat < 0x80 ∧
    ¬(0x41 ≤ c.toNat ∧ c.toNat ≤ 0x5a) := by
  rcases h with h | rfl
  · rw [isUrlChar, Bool.or_eq_true, Case.isLower_iff, Case.isDigit_iff] at h
    omega
  · decide

theorem toLowerCase_eq_self {cs : List Char} (h : ∀ c ∈ cs, isUrlChar c = true ∨ c = '-') :
    toLowerCase cs = cs := by
  have hsame : ∀ c ∈ cs,
      (if c = '\u0130' then ['i', '\u0307'] else [Case.toLower c]) = [c] := by
    intro c hc
    obtain ⟨hascii, hupper⟩ := toNat_isUrlChar (h c hc)
    have hne : c ≠ '\u0130' := by
      rintro rfl
      exact absurd hascii (by decide)
    have hlower := Case.toLower_ascii hascii
    rw [if_neg hupper] at hlower
    rw [if_neg hne, Char.toNat_inj.mp hlower]
  rw [toLowerCase, List.flatMap_congr hsame]
  exact List.flatMap_singleton' cs

theorem sanitize_sanitize (input : String) : sanitize (sanitize input) = sanitize input := by
  have hslug := toList_sanitize input
  refine String.toList_injective ?_
  rw [toList_sanitize (sanitize input), hslug, toLowerCase_eq_self fun _ => mem_slug]
  refine slug_eq_self isUrlChar_dash (fun _ => mem_slug) (slug_spaced isUrlChar_dash _) ?_
    (getLast?_slug_ne isUrlChar_dash _)
  intro hhead
  have hkeep := keep_of_head?_slug isUrlChar_dash hhead
  rw [isUrlChar_dash] at hkeep
  cases hkeep

/-! ## The host -/

/-- `crypto.randomBytes(3).toString("hex").slice(0, 6)` -/
def randomHash (bytes : Bytes) : String := String.ofList ((Hex.encode bytes).take 6)

def labelOf (projectName hash : String) : String := sanitize projectName ++ "-" ++ hash

/-- The name has a letter or digit, and with one dash between its runs of them it leaves room for
a dash and six digits. -/
def Roomy (projectName : String) : Prop :=
  slug isUrlChar '-' (toLowerCase projectName.toList) ≠ [] ∧
    (slug isUrlChar '-' (toLowerCase projectName.toList)).length ≤ 56

instance (projectName : String) : Decidable (Roomy projectName) := instDecidableAnd

/-- The worker routes the address at one label below the domain. -/
def ValidAddress (deployDomain hash projectName : String) : Prop :=
  let host := sanitizeHost (utf8 (generateDeploymentUrl deployDomain hash projectName))
  ∃ label, DnsLabel label ∧ host = label ++ dot :: utf8 deployDomain ∧
    isSubdomain host (utf8 deployDomain) = true

theorem isNameByte_table : ∀ n < 0x80, isNameByte (UInt8.ofNat n) = isUrlChar (Char.ofNat n) := by
  decide +kernel

theorem isNameByte_ofNat {c : Char} (h : c.toNat < 0x80) :
    isNameByte (UInt8.ofNat c.toNat) = isUrlChar c := by
  rw [isNameByte_table c.toNat h, Char.ofNat_toNat]

def isHostByte (b : UInt8) : Bool := isNameByte b || b == dash || b == dot

theorem isHostByte_cases {b : UInt8} (h : isHostByte b = true) :
    b.toNat < 0x80 ∧ lowerByte b = b ∧ b ≠ 0x2f ∧ b ≠ 0x3a := by
  have htable : ∀ n < 256, isHostByte (UInt8.ofNat n) = true →
      (UInt8.ofNat n).toNat < 0x80 ∧ lowerByte (UInt8.ofNat n) = UInt8.ofNat n ∧
        UInt8.ofNat n ≠ 0x2f ∧ UInt8.ofNat n ≠ 0x3a := by decide +kernel
  have hb := htable b.toNat b.toNat_lt
  rw [UInt8.ofNat_toNat] at hb
  exact hb h

theorem toLower_eq_self {s : GoString} (h : ∀ b ∈ s, isHostByte b = true) : toLower s = s := by
  rw [toLower_of_ascii fun b hb => (isHostByte_cases (h b hb)).1]
  exact (List.map_congr_left fun b hb => (isHostByte_cases (h b hb)).2.1).trans (List.map_id' s)

theorem sanitizeHost_url {s : GoString} (h : ∀ b ∈ s, isHostByte b = true) :
    sanitizeHost (utf8 "https://" ++ s) = s := by
  have hscheme : trimPrefix (utf8 "https://" ++ s) (utf8 "https://") = s := by
    rw [trimPrefix, if_pos (List.isPrefixOf_iff_prefix.mpr (List.prefix_append _ _)),
      List.drop_left]
  have htrim : trimPrefix s (utf8 "http://") = s := by
    rw [trimPrefix, if_neg]
    intro hbeginsed
    have hcolon : (0x3a : UInt8) ∈ s :=
      (List.isPrefixOf_iff_prefix.mp hbeginsed).subset (by decide)
    exact (isHostByte_cases (h _ hcolon)).2.2.2 rfl
  have hbefore : before 0x2f s = s :=
    List.takeWhile_eq_self_iff.mpr fun b hb => bne_iff_ne.mpr (isHostByte_cases (h b hb)).2.2.1
  rw [sanitizeHost]
  simp only [hscheme, htrim, hbefore, toLower_eq_self h]

theorem isHostByte_of_isHost {host : GoString} (h : IsHost host) :
    ∀ b ∈ host, isHostByte b = true := by
  intro b hb
  by_cases hdot : b = dot
  · rw [hdot]
    decide
  · obtain ⟨l, hl, hbl⟩ := (Dns.mem_labels_iff hdot).mpr hb
    rcases (h.labels l hl).chars b hbl with hname | hdash
    · rw [isHostByte, hname]
      rfl
    · rw [hdash]
      decide

variable {projectName : String}

theorem toList_labelOf (projectName hash : String) : (labelOf projectName hash).toList =
    slug isUrlChar '-' (toLowerCase projectName.toList) ++ '-' :: hash.toList := by
  rw [labelOf, String.toList_append, String.toList_append, toList_sanitize, List.append_assoc]
  rfl

theorem utf8_generateDeploymentUrl (deployDomain hash projectName : String) :
    utf8 (generateDeploymentUrl deployDomain hash projectName) =
      utf8 "https://" ++ (utf8 (labelOf projectName hash) ++ dot :: utf8 deployDomain) := by
  have hdot : utf8 "." = [dot] := by decide
  simp only [generateDeploymentUrl, labelOf, utf8_append, hdot, List.append_assoc,
    List.singleton_append]

theorem isUrlChar_randomHash {bytes : Bytes} {c : Char} (h : c ∈ (randomHash bytes).toList) :
    isUrlChar c = true := by
  have hdigit : ∀ n < 16, isUrlChar (Hex.digit n) = true := by decide
  rw [randomHash, String.toList_ofList] at h
  obtain ⟨b, _, hc⟩ := List.mem_flatMap.mp (List.mem_of_mem_take h)
  have hb := b.toNat_lt
  rcases List.mem_cons.mp hc with rfl | hc
  · exact hdigit _ (by omega)
  · rw [List.mem_singleton.mp hc]
    exact hdigit _ (Nat.mod_lt _ (by decide))

theorem length_randomHash {bytes : Bytes} (h : bytes.length = 3) :
    (randomHash bytes).toList.length = 6 := by
  have hlength : ∀ bs : Bytes, (Hex.encode bs).length = 2 * bs.length := by
    intro bs
    induction bs with
    | nil => rfl
    | cons b bs ih =>
      rw [Hex.encode_cons, List.length_cons, List.length_cons, ih, List.length_cons]
      omega
  rw [randomHash, String.toList_ofList, List.length_take, hlength, h]
  rfl

theorem char_of_mem_labelOf {bytes : Bytes} {c : Char}
    (h : c ∈ (labelOf projectName (randomHash bytes)).toList) : isUrlChar c = true ∨ c = '-' := by
  rw [toList_labelOf, List.mem_append, List.mem_cons] at h
  rcases h with h | h | h
  · exact mem_slug h
  · exact Or.inr h
  · exact Or.inl (isUrlChar_randomHash h)

theorem utf8_labelOf (projectName : String) (bytes : Bytes) :
    utf8 (labelOf projectName (randomHash bytes)) =
      (labelOf projectName (randomHash bytes)).toList.map fun c => UInt8.ofNat c.toNat :=
  utf8_of_ascii fun _ hc => (toNat_isUrlChar (char_of_mem_labelOf hc)).1

theorem byte_of_mem_labelOf {bytes : Bytes} {b : UInt8}
    (h : b ∈ utf8 (labelOf projectName (randomHash bytes))) : isNameByte b = true ∨ b = dash := by
  rw [utf8_labelOf] at h
  obtain ⟨c, hc, rfl⟩ := List.mem_map.mp h
  rcases char_of_mem_labelOf hc with hurl | rfl
  · rw [isNameByte_ofNat (toNat_isUrlChar (Or.inl hurl)).1]
    exact Or.inl hurl
  · exact Or.inr rfl

/-- The label is one exactly if the name is roomy. -/
theorem dnsLabel_labelOf_iff (projectName : String) {bytes : Bytes} (hbytes : bytes.length = 3) :
    DnsLabel (utf8 (labelOf projectName (randomHash bytes))) ↔ Roomy projectName := by
  have hhash := length_randomHash hbytes
  have hlist := toList_labelOf projectName (randomHash bytes)
  have hlength : (utf8 (labelOf projectName (randomHash bytes))).length =
      (slug isUrlChar '-' (toLowerCase projectName.toList)).length + 7 := by
    rw [utf8_labelOf, List.length_map, hlist, List.length_append, List.length_cons, hhash]
  have hfirst : (utf8 (labelOf projectName (randomHash bytes))).head?.any isNameByte = true ↔
      slug isUrlChar '-' (toLowerCase projectName.toList) ≠ [] := by
    rw [utf8_labelOf, hlist]
    cases hslug : slug isUrlChar '-' (toLowerCase projectName.toList) with
    | nil =>
      refine iff_of_false ?_ fun h => h rfl
      rw [List.nil_append, List.map_cons, List.head?_cons]
      decide
    | cons c cs =>
      have hc : isUrlChar c = true := by
        refine keep_of_head?_slug isUrlChar_dash (s := toLowerCase projectName.toList) ?_
        rw [hslug, List.head?_cons]
      refine iff_of_true ?_ (List.cons_ne_nil c cs)
      simpa [isNameByte_ofNat (toNat_isUrlChar (Or.inl hc)).1] using hc
  have hlast : (utf8 (labelOf projectName (randomHash bytes))).getLast?.any isNameByte = true := by
    have hne : (randomHash bytes).toList ≠ [] := by
      intro hnil
      rw [hnil] at hhash
      cases hhash
    have hc := isUrlChar_randomHash (List.getLast_mem hne)
    rw [utf8_labelOf, List.getLast?_map, hlist, List.getLast?_append_of_ne_nil _ (by simp),
      List.getLast?_cons_of_ne_nil hne, List.getLast?_eq_some_getLast hne]
    simpa [isNameByte_ofNat (toNat_isUrlChar (Or.inl hc)).1] using hc
  constructor
  · intro hlabel
    have hle := hlabel.length
    exact ⟨hfirst.mp hlabel.first, by omega⟩
  · rintro ⟨hne, hle⟩
    exact ⟨by omega, hfirst.mpr hne, hlast, fun _ => byte_of_mem_labelOf⟩

theorem isSubdomain_of_front {front base : GoString} (hbase : base ≠ [])
    (hlower : toLower (front ++ dot :: base) = front ++ dot :: base)
    (hbaseLower : toLower base = base) : isSubdomain (front ++ dot :: base) base = true := by
  rw [isSubdomain_iff hlower hbase, hbaseLower]
  exact Or.inl ⟨front, rfl⟩

/-- The address of a project is one label below the domain, whatever the random bytes are, exactly
if its name is roomy; and what is sanitised stays as it is. -/
theorem validAddress_iff (deployDomain : String) (hdomain : IsHost (utf8 deployDomain))
    (projectName : Api.ProjectName) (bytes : Bytes) (hbytes : bytes.length = 3) :
    (ValidAddress deployDomain (randomHash bytes) projectName.val ↔ Roomy projectName.val) ∧
      ∀ input : String, sanitize (sanitize input) = sanitize input := by
  refine ⟨?_, sanitize_sanitize⟩
  have hbase := isHostByte_of_isHost hdomain
  have hhostBytes : ∀ b ∈ utf8 (labelOf projectName.val (randomHash bytes)) ++
      dot :: utf8 deployDomain, isHostByte b = true := by
    intro b hb
    rcases List.mem_append.mp hb with hb | hb
    · rcases byte_of_mem_labelOf hb with hname | rfl
      · rw [isHostByte, hname]
        rfl
      · decide
    · rcases List.mem_cons.mp hb with rfl | hb
      · decide
      · exact hbase b hb
  have hhost : sanitizeHost (utf8 (generateDeploymentUrl deployDomain (randomHash bytes)
      projectName.val)) =
        utf8 (labelOf projectName.val (randomHash bytes)) ++ dot :: utf8 deployDomain := by
    rw [utf8_generateDeploymentUrl, sanitizeHost_url hhostBytes]
  have hne : utf8 deployDomain ≠ [] := by
    intro hnil
    rw [hnil] at hdomain
    exact absurd (hdomain.labels [] (by decide)) (by decide)
  have hsub := isSubdomain_of_front hne (toLower_eq_self hhostBytes) (toLower_eq_self hbase)
  rw [ValidAddress, hhost, ← dnsLabel_labelOf_iff projectName.val hbytes]
  constructor
  · rintro ⟨label, hlabel, heq, _⟩
    rwa [List.append_cancel_right heq]
  · exact fun hlabel => ⟨_, hlabel, rfl, hsub⟩

theorem validAddress_shop :
    IsHost (utf8 "preview.dev") ∧ [0xab, 0x12, 0xef].length = 3 ∧
      ValidAddress "preview.dev" (randomHash [0xab, 0x12, 0xef]) "My-Shop" := by
  have hdomain : IsHost (utf8 "preview.dev") := by decide +kernel
  exact ⟨hdomain, rfl, (validAddress_iff "preview.dev" hdomain ⟨"My-Shop", by decide⟩
    [0xab, 0x12, 0xef] rfl).1.mpr (by decide +kernel)⟩

/-- A name of dashes only. -/
theorem not_validAddress :
    ¬∀ (deployDomain : String) (projectName : Api.ProjectName) (bytes : Bytes),
      IsHost (utf8 deployDomain) → bytes.length = 3 →
        ValidAddress deployDomain (randomHash bytes) projectName.val := by
  intro h
  obtain ⟨label, hlabel, hhost, _⟩ :=
    h "preview.dev" ⟨"---", by decide⟩ [0xab, 0x12, 0xef] (by decide +kernel) rfl
  have hknown : sanitizeHost (utf8 (generateDeploymentUrl "preview.dev"
      (randomHash [0xab, 0x12, 0xef]) "---")) = utf8 "-ab12ef" ++ dot :: utf8 "preview.dev" := by
    decide +kernel
  rw [hknown] at hhost
  rw [← List.append_cancel_right hhost] at hlabel
  exact absurd hlabel (by decide +kernel)

end UrlUtils
end System
end Code2Cloud
