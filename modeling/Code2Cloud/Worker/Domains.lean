import Code2Cloud.Worker.Routing

/-!
# The domains that users add

Which of the names that `AddDomainDto` accepts are host names that an ingress may have.
-/

namespace Code2Cloud
namespace Worker

open GoString

/-- A host that the rules of an ingress may have. -/
abbrev IsHost (host : GoString) : Prop := Dns.Host isNameByte dash dot host

/-- Not too long, without underscores, and no label is too long or has a dash at its ends. -/
def HostLike (name : String) : Prop :=
  name.toList.length ≤ 253 ∧ '_' ∉ name.toList ∧
    ∀ l ∈ name.toList.splitOn '.', l.length ≤ 63 ∧ l.head? ≠ some '-' ∧ l.getLast? ≠ some '-'

instance (name : String) : Decidable (HostLike name) := instDecidableAnd

/-- Not too long, without underscores, and no label has a dash at its ends. -/
def SubdomainLike (name : String) : Prop :=
  name.toList.length ≤ 253 ∧ '_' ∉ name.toList ∧
    ∀ l ∈ name.toList.splitOn '.', l.head? ≠ some '-' ∧ l.getLast? ≠ some '-'

instance (name : String) : Decidable (SubdomainLike name) := instDecidableAnd

def isDomainChar (c : Char) : Bool := c.isAlphanum || c == '-' || c == '_' || c == '.'

def hostByte (c : Char) : UInt8 := lowerByte (UInt8.ofNat c.toNat)

/-! ## Characters and bytes -/

theorem toNat_lt_of_isDomainChar {c : Char} (h : isDomainChar c = true) : c.toNat < 0x80 := by
  simp only [isDomainChar, Bool.or_eq_true, Case.isAlphanum_iff, beq_iff_eq] at h
  rcases h with ((h | rfl) | rfl) | rfl
  · omega
  · decide
  · decide
  · decide

/-- What the characters of a domain name become. -/
theorem hostByte_table : ∀ n < 0x80, isDomainChar (Char.ofNat n) = true →
    (isNameByte (hostByte (Char.ofNat n)) = (Char.ofNat n).isAlphanum) ∧
      (hostByte (Char.ofNat n) = dash ↔ Char.ofNat n = '-') ∧
      (hostByte (Char.ofNat n) = dot ↔ Char.ofNat n = '.') ∧
      hostByte (Char.ofNat n) ≠ 0x2f ∧ hostByte (Char.ofNat n) ≠ 0x3a := by decide

theorem facts_of_isDomainChar {c : Char} (h : isDomainChar c = true) :
    (isNameByte (hostByte c) = c.isAlphanum) ∧ (hostByte c = dash ↔ c = '-') ∧
      (hostByte c = dot ↔ c = '.') ∧ hostByte c ≠ 0x2f ∧ hostByte c ≠ 0x3a := by
  have htable := hostByte_table c.toNat (toNat_lt_of_isDomainChar h)
  rw [Char.ofNat_toNat] at htable
  exact htable h

theorem sanitizeHost_utf8 {name : String} (h : ∀ c ∈ name.toList, isDomainChar c = true) :
    sanitizeHost (utf8 name) = name.toList.map hostByte := by
  have hbytes := utf8_of_ascii fun c hc => toNat_lt_of_isDomainChar (h c hc)
  have hmem : ∀ b ∈ utf8 name, b.toNat < 0x80 ∧ b ≠ 0x2f ∧ b ≠ 0x3a := by
    intro b hb
    rw [hbytes] at hb
    obtain ⟨c, hc, rfl⟩ := List.mem_map.mp hb
    have hascii := toNat_lt_of_isDomainChar (h c hc)
    obtain ⟨_, _, _, hslash, hcolon⟩ := facts_of_isDomainChar (h c hc)
    refine ⟨by rw [Utf8.toNat_ofNat_of_lt (by omega)]; exact hascii, ?_, ?_⟩
    · exact fun heq => hslash (by rw [hostByte, heq]; decide)
    · exact fun heq => hcolon (by rw [hostByte, heq]; decide)
  have htrim : ∀ pre : GoString, 0x3a ∈ pre → trimPrefix (utf8 name) pre = utf8 name := by
    intro pre hpre
    rw [trimPrefix, if_neg]
    intro hbeginsed
    exact (hmem 0x3a ((List.isPrefixOf_iff_prefix.mp hbeginsed).subset hpre)).2.2 rfl
  have hbefore : before 0x2f (utf8 name) = utf8 name :=
    List.takeWhile_eq_self_iff.mpr fun b hb => bne_iff_ne.mpr (hmem b hb).2.1
  rw [sanitizeHost]
  simp only [htrim (utf8 "https://") (by decide), htrim (utf8 "http://") (by decide), hbefore]
  rw [toLower_of_ascii fun b hb => (hmem b hb).1, hbytes, List.map_map]
  rfl

/-! ## Labels -/

variable {l : List Char}

/-- Where a label has no underscore, only dashes are not alphanumeric. -/
theorem isNameByte_hostByte {c : Char} (h : isDomainChar c = true) (hdot : c ≠ '.')
    (hunderscore : c ≠ '_') : isNameByte (hostByte c) = true ↔ c ≠ '-' := by
  rw [(facts_of_isDomainChar h).1]
  simp only [isDomainChar, Bool.or_eq_true, beq_iff_eq] at h
  refine ⟨?_, fun hdash => ((h.resolve_right hdot).resolve_right hunderscore).resolve_right hdash⟩
  rintro halnum rfl
  exact absurd halnum (by decide)

theorem dnsWord_iff (hne : l ≠ []) (h : ∀ c ∈ l, isDomainChar c = true) (hdot : '.' ∉ l) :
    Dns.Word isNameByte dash (l.map hostByte) ↔
      '_' ∉ l ∧ l.head? ≠ some '-' ∧ l.getLast? ≠ some '-' := by
  have hbyte : ∀ c ∈ l, '_' ∉ l → (isNameByte (hostByte c) = true ↔ c ≠ '-') :=
    fun c hc hunderscore => isNameByte_hostByte (h c hc) (fun heq => hdot (heq ▸ hc))
      fun heq => hunderscore (heq ▸ hc)
  have hfirst : '_' ∉ l → ((l.map hostByte).head?.any isNameByte = true ↔ l.head? ≠ some '-') := by
    intro hunderscore
    cases l with
    | nil => exact absurd rfl hne
    | cons c l => simpa using hbyte c List.mem_cons_self hunderscore
  have hlast : '_' ∉ l →
      ((l.map hostByte).getLast?.any isNameByte = true ↔ l.getLast? ≠ some '-') := by
    intro hunderscore
    rw [List.getLast?_map, List.getLast?_eq_some_getLast hne]
    simpa using hbyte _ (List.getLast_mem hne) hunderscore
  have hchars : (∀ b ∈ l.map hostByte, isNameByte b = true ∨ b = dash) ↔ '_' ∉ l := by
    constructor
    · intro hall hunderscore
      have hbad := hall _ (List.mem_map_of_mem hunderscore)
      revert hbad
      decide
    · intro hunderscore b hb
      obtain ⟨c, hc, rfl⟩ := List.mem_map.mp hb
      by_cases hdash : c = '-'
      · exact Or.inr ((facts_of_isDomainChar (h c hc)).2.1.mpr hdash)
      · exact Or.inl ((hbyte c hc hunderscore).mpr hdash)
  constructor
  · intro hword
    have hunderscore := hchars.mp hword.chars
    exact ⟨hunderscore, (hfirst hunderscore).mp hword.first, (hlast hunderscore).mp hword.last⟩
  · rintro ⟨hunderscore, hhead, hend⟩
    exact ⟨(hfirst hunderscore).mpr hhead, (hlast hunderscore).mpr hend, hchars.mpr hunderscore⟩

theorem dnsLabel_iff (hne : l ≠ []) (h : ∀ c ∈ l, isDomainChar c = true) (hdot : '.' ∉ l) :
    DnsLabel (l.map hostByte) ↔
      '_' ∉ l ∧ l.length ≤ 63 ∧ l.head? ≠ some '-' ∧ l.getLast? ≠ some '-' := by
  rw [DnsLabel, Dns.label_iff, dnsWord_iff hne h hdot, List.length_map, and_left_comm]

/-! ## Accepted names -/

theorem labels_of_accepts {name : String} (h : Api.acceptsDomainName name = true) :
    ∀ l ∈ Dns.labels '.' name.toList, l ≠ [] ∧ ∀ c ∈ l, isDomainChar c = true := by
  have hsplit : Dns.labels '.' name.toList = name.toList.splitOnP (· == '.') :=
    List.splitOn_eq_splitOnP
  have hword : ∀ {l : List Char}, l.all (fun c => c.isAlphanum || c == '-' || c == '_') = true →
      ∀ c ∈ l, isDomainChar c = true := by
    intro l hl c hc
    rw [isDomainChar, List.all_eq_true.mp hl c hc, Bool.true_or]
  have halpha : ∀ {l : List Char}, l.all Char.isAlpha = true → ∀ c ∈ l, isDomainChar c = true := by
    intro l hl c hc
    rw [isDomainChar, Char.isAlphanum, List.all_eq_true.mp hl c hc]
    rfl
  have hne : ∀ {l : List Char}, 2 ≤ l.length → l ≠ [] := by
    rintro l hl rfl
    cases hl
  intro l hl
  rw [hsplit, ← List.mem_reverse] at hl
  simp only [Api.acceptsDomainName] at h
  split at h
  · rename_i tld second subdomains hreverse
    rw [hreverse] at hl
    simp only [Bool.and_eq_true, decide_eq_true_eq] at h
    obtain ⟨⟨⟨⟨hshort, _⟩, htld⟩, ⟨⟨hshort', _⟩, hsecond⟩⟩, hsubdomains⟩ := h
    rcases List.mem_cons.mp hl with rfl | hl
    · exact ⟨hne hshort, halpha htld⟩
    rcases List.mem_cons.mp hl with rfl | hl
    · exact ⟨hne hshort', hword hsecond⟩
    · have hsubdomain := List.all_eq_true.mp hsubdomains l hl
      simp only [Bool.and_eq_true, Bool.not_eq_true', List.isEmpty_eq_false_iff] at hsubdomain
      exact ⟨hsubdomain.1, hword hsubdomain.2⟩
  · cases h

theorem isDomainChar_of_accepts {name : String} (h : Api.acceptsDomainName name = true) :
    ∀ c ∈ name.toList, isDomainChar c = true := by
  intro c hc
  by_cases hdot : c = '.'
  · rw [hdot]
    decide
  · obtain ⟨l, hl, hcl⟩ := (Dns.mem_labels_iff hdot).mpr hc
    exact (labels_of_accepts h l hl).2 c hcl

/-- A check of the labels of the host that an accepted name becomes. -/
theorem forall_labels_iff (domain : Api.DomainName) {checked : GoString → Prop}
    {ends : List Char → Prop} (h : ∀ l, l ≠ [] → (∀ c ∈ l, isDomainChar c = true) → '.' ∉ l →
      (checked (l.map hostByte) ↔ '_' ∉ l ∧ ends l)) :
    (∀ l ∈ Dns.labels dot (sanitizeHost (utf8 domain.val)), checked l) ↔
      '_' ∉ domain.val.toList ∧ ∀ l ∈ domain.val.toList.splitOn '.', ends l := by
  have hchars := isDomainChar_of_accepts domain.property
  have hlabels := labels_of_accepts domain.property
  have hsplit : Dns.labels dot (domain.val.toList.map hostByte) =
      (Dns.labels '.' domain.val.toList).map (List.map hostByte) :=
    Dns.labels_map fun c hc => (facts_of_isDomainChar (hchars c hc)).2.2.1
  have hlabel (l : List Char) (hl : l ∈ Dns.labels '.' domain.val.toList) :
      checked (l.map hostByte) ↔ '_' ∉ l ∧ ends l :=
    h l (hlabels l hl).1 (hlabels l hl).2 (Dns.dot_notMem_of_mem_labels hl)
  have hne : '_' ≠ '.' := by decide
  rw [sanitizeHost_utf8 hchars, hsplit]
  constructor
  · intro hall
    have hevery (l : List Char) (hl : l ∈ Dns.labels '.' domain.val.toList) :
        '_' ∉ l ∧ ends l := (hlabel l hl).mp (hall _ (List.mem_map_of_mem hl))
    refine ⟨fun hunderscore => ?_, fun l hl => (hevery l hl).2⟩
    obtain ⟨l, hl, hmem⟩ := (Dns.mem_labels_iff hne).mpr hunderscore
    exact (hevery l hl).1 hmem
  · rintro ⟨hunderscore, hends⟩ bytes hbytes
    obtain ⟨l, hl, rfl⟩ := List.mem_map.mp hbytes
    refine (hlabel l hl).mpr ⟨fun hmem => hunderscore ?_, hends l hl⟩
    exact (Dns.mem_labels_iff hne).mp ⟨l, hl, hmem⟩

theorem length_sanitizeHost (domain : Api.DomainName) :
    (sanitizeHost (utf8 domain.val)).length = domain.val.toList.length := by
  rw [sanitizeHost_utf8 (isDomainChar_of_accepts domain.property), List.length_map]

theorem isHost_iff (domain : Api.DomainName) :
    IsHost (sanitizeHost (utf8 domain.val)) ↔ HostLike domain.val := by
  have hlabels := forall_labels_iff domain fun _ hne hchars hdot => dnsLabel_iff hne hchars hdot
  rw [HostLike, ← length_sanitizeHost, ← hlabels]
  exact ⟨fun h => ⟨h.length, h.labels⟩, fun h => ⟨h.1, h.2⟩⟩

theorem isDnsSubdomain_iff (domain : Api.DomainName) :
    Dns.Subdomain isNameByte dash dot (sanitizeHost (utf8 domain.val)) ↔
      SubdomainLike domain.val := by
  have hlabels := forall_labels_iff domain fun _ hne hchars hdot => dnsWord_iff hne hchars hdot
  rw [SubdomainLike, ← length_sanitizeHost, ← hlabels]
  exact ⟨fun h => ⟨h.length, h.words⟩, fun h => ⟨h.1, h.2⟩⟩

/-! ## Deploying them -/

/-- A deployment that has the domain, and whose other domains are hosts, writes an ingress with
hosts only. -/
def Deployable (domain : GoString) : Prop :=
  ∀ (baseDomain : GoString) (opts : DeployOptions), domain ∈ opts.domains →
    (∀ other ∈ opts.domains, other = [] ∨ other = domain ∨ IsHost (sanitizeHost other)) →
      ∀ host ∈ (Client.ingress baseDomain opts).hosts, IsHost host

theorem deployable_iff {domain : GoString} (hne : domain ≠ []) :
    Deployable domain ↔ IsHost (sanitizeHost domain) := by
  constructor
  · intro h
    let opts := { Client.bareOptions [] with domains := [domain] }
    refine h [] opts List.mem_cons_self (fun other hother => ?_) (sanitizeHost domain) ?_
    · exact Or.inr (Or.inl (List.mem_singleton.mp hother))
    · rw [(serves_ingress [] opts).1, allHosts_eq]
      · exact List.mem_singleton.mpr rfl
      · intro other hother
        rwa [List.mem_singleton.mp hother]
  · intro h baseDomain opts hdomain hothers host hhost
    rw [(serves_ingress baseDomain opts).1] at hhost
    obtain ⟨other, hother, rfl⟩ := List.mem_map.mp hhost
    rw [List.mem_filter, Bool.not_eq_true', List.isEmpty_eq_false_iff] at hother
    rcases hothers other hother.1 with hempty | rfl | hvalid
    · exact absurd hempty hother.2
    · exact h
    · exact hvalid

/-- An accepted name is a host, and leaves a project deployable, exactly if it is like one. -/
theorem accepted_domain_iff (domain : Api.DomainName) :
    (IsHost (sanitizeHost (utf8 domain.val)) ↔ HostLike domain.val) ∧
      (Deployable (utf8 domain.val) ↔ HostLike domain.val) := by
  have hne : utf8 domain.val ≠ [] := by
    rw [ne_eq, Utf8.utf8_eq_nil_iff]
    intro hempty
    have haccepted := domain.property
    rw [hempty] at haccepted
    exact absurd haccepted (by decide)
  exact ⟨isHost_iff domain, (deployable_iff hne).trans (isHost_iff domain)⟩

theorem not_accepted_domain :
    ¬∀ domain : Api.DomainName, IsHost (sanitizeHost (utf8 domain.val)) := by
  intro h
  have hhost := h ⟨"my_app.example.com", by decide⟩
  exact absurd hhost (by decide)

end Worker
end Code2Cloud
