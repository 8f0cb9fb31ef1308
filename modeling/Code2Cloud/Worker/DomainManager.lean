import Code2Cloud.Worker.Cleanup
import Code2Cloud.Worker.Domains
import Mathlib.Data.List.Dedup

/-!
# The domain manager

`AddDomain` and `RemoveDomain` on the ingresses of the namespace, and when they insert a host into
the rules of an ingress and delete it again.
-/

namespace Code2Cloud
namespace Worker

open GoString

abbrev Ingresses := GoString → Option IngressObject

/-- Which hosts the API server takes for the rules of an ingress. -/
structure HostCheck where
  admitsHost : GoString → Bool
  /-- A host with a letter, which is no address then, and without a `*` is checked as a name. -/
  names : ∀ host, (∃ b ∈ host, isLower b = true) → 0x2a ∉ host →
    (admitsHost host = true ↔ Dns.Subdomain isNameByte dash dot host)

namespace HostCheck

def admits (check : HostCheck) (i : IngressObject) : Bool := i.hosts.all check.admitsHost

/-- The check that takes names only, or no host. -/
def dns1123 : HostCheck where
  admitsHost host := host.isEmpty || decide (Dns.Subdomain isNameByte dash dot host)
  names := by
    rintro host ⟨b, hb, _⟩ _
    have hne : host.isEmpty = false := List.isEmpty_eq_false_iff.mpr (List.ne_nil_of_mem hb)
    rw [hne, Bool.false_or, decide_eq_true_iff]

end HostCheck

/-- How the requests of a call fare: the two reads and the write. -/
structure Calls where
  get : Bool
  getAgain : Bool
  update : Answer

def Calls.ok : Calls := ⟨true, true, .ok⟩

namespace DomainManager

variable (check : HostCheck) (baseDomain : GoString)

/-- `UpdateIngressHosts`: the ingresses after it and whether it returned nil. -/
def updateIngressHosts (name : GoString) (hosts : List GoString) (calls : Calls)
    (ingresses : Ingresses) : Ingresses × Bool :=
  let name := sanitizeK8sName name
  match calls.getAgain, ingresses name with
  | true, some ingress =>
    let ingress := Client.updateIngressHosts baseDomain name hosts ingress
    match check.admits ingress, calls.update with
    | true, .ok => (Cluster.put ingresses name (some ingress), true)
    | true, .lost _ => (Cluster.put ingresses name (some ingress), false)
    | _, _ => (ingresses, false)
  | _, _ => (ingresses, false)

/-- The order in which the loop ranges over its map. -/
abbrev MapOrder := {order : List GoString → List GoString // ∀ hosts, (order hosts).Perm hosts}

def addDomain (projectName domain : GoString) (order : MapOrder) (calls : Calls)
    (ingresses : Ingresses) : Ingresses × Bool :=
  let name := sanitizeK8sName projectName
  match calls.get, ingresses name with
  | true, some ingress =>
    let existingHosts := ingress.hosts.dedup
    if existingHosts.contains domain then (ingresses, true)
    else
      updateIngressHosts check baseDomain name (order.val existingHosts ++ [domain]) calls ingresses
  | _, _ => (ingresses, false)

def removeDomain (projectName domain : GoString) (calls : Calls) (ingresses : Ingresses) :
    Ingresses × Bool :=
  let name := sanitizeK8sName projectName
  match calls.get, ingresses name with
  | true, some ingress =>
    let hosts := ingress.hosts.filter fun host => host ≠ domain
    if hosts = [] then (ingresses, false)
    else updateIngressHosts check baseDomain name hosts calls ingresses
  | _, _ => (ingresses, false)

/-- The ingress of a project, as the API server may hold it: labels have at most 63 bytes. -/
structure Held (projectName : GoString) (ingresses : Ingresses) (i : IngressObject) : Prop where
  stored : ingresses (sanitizeK8sName projectName) = some i
  app : i.app = sanitizeK8sName projectName
  label : i.app.length ≤ 63
  admitted : check.admits i = true

/-- What adding a domain and removing it again does to the hosts of an ingress. -/
structure SetLaws (projectName domain : GoString) (i : IngressObject) (ingresses' : Ingresses)
    (i' : IngressObject) : Prop where
  stored : ingresses' (sanitizeK8sName projectName) = some i'
  inserted : ∀ host, host ∈ i'.hosts ↔ host ∈ i.hosts ∨ host = sanitizeHost domain
  nodup : i'.hosts.Nodup
  again : ∀ order' calls',
    (addDomain check baseDomain projectName domain order' calls' ingresses').1 = ingresses'
  removable : (∃ other ∈ i'.hosts, other ≠ sanitizeHost domain) →
    (removeDomain check baseDomain projectName domain .ok ingresses').2 = true
  restored : ∀ calls' ingresses'',
    removeDomain check baseDomain projectName domain calls' ingresses' = (ingresses'', true) →
      ∃ i'', ingresses'' (sanitizeK8sName projectName) = some i'' ∧
        ∀ host, host ∈ i''.hosts ↔ host ∈ i.hosts

/-- Whenever `AddDomain` returns nil, the laws hold. -/
def InsertsAndDeletes (projectName domain : GoString) (ingresses : Ingresses) (i : IngressObject) :
    Prop :=
  ∀ order calls ingresses',
    addDomain check baseDomain projectName domain order calls ingresses = (ingresses', true) →
      ∃ i', SetLaws check baseDomain projectName domain i ingresses' i'

/-! ## Writing the hosts -/

variable {check} {baseDomain} {projectName : GoString} {ingresses : Ingresses} {i : IngressObject}

theorem Held.name (h : Held check projectName ingresses i) :
    sanitizeK8sName (sanitizeK8sName projectName) = sanitizeK8sName projectName := by
  refine sanitizeK8sName_sanitizeK8sName ?_
  rw [← h.app]
  exact h.label

theorem hosts_written (baseDomain name : GoString) (hosts : List GoString) (i : IngressObject) :
    (Client.updateIngressHosts baseDomain name hosts i).hosts = hosts.map sanitizeHost :=
  (serves_updateIngressHosts baseDomain name hosts i).1

/-- The ingresses with these hosts written to the project's. -/
def written (baseDomain projectName : GoString) (hosts : List GoString) (i : IngressObject)
    (ingresses : Ingresses) : Ingresses :=
  Cluster.put ingresses (sanitizeK8sName projectName)
    (some (Client.updateIngressHosts baseDomain (sanitizeK8sName projectName) hosts i))

theorem held_written (h : Held check projectName ingresses i) {hosts : List GoString}
    (hadmits : check.admits
      (Client.updateIngressHosts baseDomain (sanitizeK8sName projectName) hosts i) = true) :
    Held check projectName (written baseDomain projectName hosts i ingresses)
      (Client.updateIngressHosts baseDomain (sanitizeK8sName projectName) hosts i) where
  stored := Cluster.put_eq ingresses _ _
  app := h.app
  label := h.label
  admitted := hadmits

/-- `UpdateIngressHosts` returns nil only if it stored the ingress with the hosts. -/
theorem written_of_updateIngressHosts (h : Held check projectName ingresses i)
    {hosts : List GoString} {calls : Calls} {ingresses' : Ingresses}
    (hok : updateIngressHosts check baseDomain (sanitizeK8sName projectName) hosts calls ingresses =
      (ingresses', true)) :
    check.admits
        (Client.updateIngressHosts baseDomain (sanitizeK8sName projectName) hosts i) = true ∧
      ingresses' = written baseDomain projectName hosts i ingresses := by
  simp only [updateIngressHosts, h.name, h.stored] at hok
  split at hok
  · rename_i ingress _ hingress
    cases hingress
    split at hok
    · rename_i hadmits _
      exact ⟨hadmits, (Prod.mk.inj hok).1.symm⟩
    · cases (Prod.mk.inj hok).2
    · cases (Prod.mk.inj hok).2
  · cases (Prod.mk.inj hok).2

theorem updateIngressHosts_ok (h : Held check projectName ingresses i) {hosts : List GoString}
    (hadmits : ∀ host ∈ hosts, check.admitsHost (sanitizeHost host) = true) :
    updateIngressHosts check baseDomain (sanitizeK8sName projectName) hosts .ok ingresses =
      (written baseDomain projectName hosts i ingresses, true) := by
  have hadmitted : check.admits
      (Client.updateIngressHosts baseDomain (sanitizeK8sName projectName) hosts i) = true := by
    rw [HostCheck.admits, hosts_written, List.all_map, List.all_eq_true]
    exact hadmits
  simp only [updateIngressHosts, h.name, h.stored, Calls.ok, hadmitted]
  rfl

/-! ## What the two functions do -/

variable {domain : GoString}

/-- `AddDomain` returns nil if it found the domain, or wrote the hosts with it behind them. -/
theorem addDomain_cases (h : Held check projectName ingresses i) {order : MapOrder} {calls : Calls}
    {ingresses' : Ingresses}
    (hok : addDomain check baseDomain projectName domain order calls ingresses =
      (ingresses', true)) :
    (domain ∈ i.hosts ∧ ingresses' = ingresses) ∨
      (domain ∉ i.hosts ∧
        check.admits (Client.updateIngressHosts baseDomain (sanitizeK8sName projectName)
          (order.val i.hosts.dedup ++ [domain]) i) = true ∧
        ingresses' = written baseDomain projectName (order.val i.hosts.dedup ++ [domain]) i
          ingresses) := by
  simp only [addDomain, h.stored] at hok
  split at hok
  · rename_i ingress _ hingress
    cases hingress
    simp only [List.contains_iff_mem, List.mem_dedup] at hok
    split at hok
    · rename_i hmem
      exact Or.inl ⟨hmem, (Prod.mk.inj hok).1.symm⟩
    · rename_i hmem
      exact Or.inr ⟨hmem, written_of_updateIngressHosts h hok⟩
  · cases (Prod.mk.inj hok).2

theorem addDomain_of_mem (h : Held check projectName ingresses i) (hmem : domain ∈ i.hosts)
    (order : MapOrder) (calls : Calls) :
    (addDomain check baseDomain projectName domain order calls ingresses).1 = ingresses ∧
      (addDomain check baseDomain projectName domain order .ok ingresses).2 = true := by
  have hdedup : domain ∈ i.hosts.dedup := List.mem_dedup.mpr hmem
  constructor
  · simp only [addDomain, h.stored]
    split
    · rename_i ingress _ hingress
      cases hingress
      rw [if_pos (List.contains_iff_mem.mpr hdedup)]
    · rfl
  · simp only [addDomain, h.stored, Calls.ok]
    rw [if_pos (List.contains_iff_mem.mpr hdedup)]

variable (baseDomain) in
theorem addDomain_ok (h : Held check projectName ingresses i) (hmem : domain ∉ i.hosts)
    (hsanitized : ∀ host ∈ i.hosts, sanitizeHost host = host)
    (hadmits : check.admitsHost (sanitizeHost domain) = true) (order : MapOrder) :
    addDomain check baseDomain projectName domain order .ok ingresses =
      (written baseDomain projectName (order.val i.hosts.dedup ++ [domain]) i ingresses, true) := by
  have hall : ∀ host ∈ order.val i.hosts.dedup ++ [domain],
      check.admitsHost (sanitizeHost host) = true := by
    intro host hhost
    rcases List.mem_append.mp hhost with hhost | hhost
    · have hold := List.mem_dedup.mp ((order.property _).subset hhost)
      rw [hsanitized host hold]
      exact List.all_eq_true.mp h.admitted host hold
    · rwa [List.mem_singleton.mp hhost]
  rw [← updateIngressHosts_ok h hall]
  have hdedup : ¬i.hosts.dedup.contains domain = true := fun hcontains =>
    hmem (List.mem_dedup.mp (List.contains_iff_mem.mp hcontains))
  simp only [addDomain, h.stored, Calls.ok]
  rw [if_neg hdedup]

/-- `RemoveDomain` returns nil only if it wrote the other hosts, and there are some. -/
theorem removeDomain_cases (h : Held check projectName ingresses i) {calls : Calls}
    {ingresses' : Ingresses}
    (hok : removeDomain check baseDomain projectName domain calls ingresses = (ingresses', true)) :
    i.hosts.filter (fun host => host ≠ domain) ≠ [] ∧
      ingresses' = written baseDomain projectName (i.hosts.filter fun host => host ≠ domain) i
        ingresses := by
  simp only [removeDomain, h.stored] at hok
  split at hok
  · rename_i ingress _ hingress
    cases hingress
    split at hok
    · cases (Prod.mk.inj hok).2
    · rename_i hne
      exact ⟨hne, (written_of_updateIngressHosts h hok).2⟩
  · cases (Prod.mk.inj hok).2

variable (baseDomain) in
theorem removeDomain_ok (h : Held check projectName ingresses i)
    (hsanitized : ∀ host ∈ i.hosts, sanitizeHost host = host)
    (hother : ∃ other ∈ i.hosts, other ≠ domain) :
    (removeDomain check baseDomain projectName domain .ok ingresses).2 = true := by
  obtain ⟨other, hmem, hne⟩ := hother
  have hnonempty : ¬i.hosts.filter (fun host => host ≠ domain) = [] :=
    List.ne_nil_of_mem (List.mem_filter.mpr ⟨hmem, by simpa using hne⟩)
  have hall : ∀ host ∈ i.hosts.filter (fun host => host ≠ domain),
      check.admitsHost (sanitizeHost host) = true := by
    intro host hhost
    have hold := (List.mem_filter.mp hhost).1
    rw [hsanitized host hold]
    exact List.all_eq_true.mp h.admitted host hold
  simp only [removeDomain, h.stored, Calls.ok]
  rw [if_neg hnonempty]
  exact congrArg Prod.snd (updateIngressHosts_ok h hall)

/-! ## When they insert and delete -/

theorem map_sanitizeHost_eq_self {hosts : List GoString}
    (h : ∀ host ∈ hosts, sanitizeHost host = host) : hosts.map sanitizeHost = hosts :=
  (List.map_congr_left h).trans (List.map_id' hosts)

/-- A domain in its own spelling that is not there yet. -/
theorem setLaws_of_notMem (h : Held check projectName ingresses i) (hnodup : i.hosts.Nodup)
    (hsanitized : ∀ host ∈ i.hosts, sanitizeHost host = host)
    (hdomain : sanitizeHost domain = domain) (hmem : domain ∉ i.hosts) {hosts : List GoString}
    (hperm : hosts.Perm i.hosts)
    (hadmits : check.admits (Client.updateIngressHosts baseDomain (sanitizeK8sName projectName)
      (hosts ++ [domain]) i) = true) :
    SetLaws check baseDomain projectName domain i
      (written baseDomain projectName (hosts ++ [domain]) i ingresses)
      (Client.updateIngressHosts baseDomain (sanitizeK8sName projectName) (hosts ++ [domain])
        i) := by
  have hheld := held_written h hadmits
  have hhosts : (Client.updateIngressHosts baseDomain (sanitizeK8sName projectName)
      (hosts ++ [domain]) i).hosts = hosts ++ [domain] := by
    rw [hosts_written]
    refine map_sanitizeHost_eq_self fun host hhost => ?_
    rcases List.mem_append.mp hhost with hhost | hhost
    · exact hsanitized host (hperm.subset hhost)
    · rwa [List.mem_singleton.mp hhost]
  have hsanitized' : ∀ host ∈ (Client.updateIngressHosts baseDomain (sanitizeK8sName projectName)
      (hosts ++ [domain]) i).hosts, sanitizeHost host = host := by
    intro host hhost
    rw [hosts_written] at hhost
    exact sanitized_of_mem_map hhost
  have hnot : domain ∉ hosts := fun hin => hmem (hperm.subset hin)
  refine ⟨hheld.stored, fun host => ?_, ?_, fun order' calls' => ?_, fun hother => ?_,
    fun calls' ingresses'' hok => ?_⟩
  · rw [hhosts, hdomain, List.mem_append, List.mem_singleton, hperm.mem_iff]
  · rw [hhosts, List.nodup_append]
    refine ⟨hperm.nodup_iff.mpr hnodup, List.nodup_singleton domain, fun a ha b hb => ?_⟩
    rw [List.mem_singleton.mp hb]
    exact fun heq => hnot (heq ▸ ha)
  · have hin : domain ∈ (Client.updateIngressHosts baseDomain (sanitizeK8sName projectName)
        (hosts ++ [domain]) i).hosts := by
      rw [hhosts]
      exact List.mem_append_right hosts List.mem_cons_self
    exact (addDomain_of_mem hheld hin order' calls').1
  · rw [hdomain] at hother
    exact removeDomain_ok baseDomain hheld hsanitized' hother
  · obtain ⟨_, rfl⟩ := removeDomain_cases hheld hok
    refine ⟨_, Cluster.put_eq _ _ _, fun host => ?_⟩
    have hrest : (hosts ++ [domain]).filter (fun host => host ≠ domain) = hosts := by
      rw [List.filter_append, List.filter_eq_self.mpr fun host hhost => by
        simpa using fun heq : host = domain => hnot (heq ▸ hhost)]
      simp
    rw [hosts_written, hhosts, hrest,
      map_sanitizeHost_eq_self fun host hhost => hsanitized host (hperm.subset hhost),
      hperm.mem_iff]

/-- A domain that is the only host already. -/
theorem setLaws_of_only (h : Held check projectName ingresses i) (hnodup : i.hosts.Nodup)
    (hdomain : sanitizeHost domain = domain) (hmem : domain ∈ i.hosts)
    (honly : ∀ host ∈ i.hosts, host = domain) :
    SetLaws check baseDomain projectName domain i ingresses i := by
  refine ⟨h.stored, fun host => ?_, hnodup, fun order' calls' => ?_, fun hother => ?_,
    fun calls' ingresses'' hok => ?_⟩
  · rw [hdomain]
    exact ⟨Or.inl, fun hin => hin.elim id fun heq => heq ▸ hmem⟩
  · exact (addDomain_of_mem h hmem order' calls').1
  · obtain ⟨other, hin, hne⟩ := hother
    exact absurd ((honly other hin).trans hdomain.symm) hne
  · refine absurd ?_ (removeDomain_cases h hok).1
    rw [List.filter_eq_nil_iff]
    intro host hhost
    simpa using honly host hhost

/-- A domain in its own spelling that is there beside others does not come back. -/
theorem not_insertsAndDeletes_of_mem (h : Held check projectName ingresses i)
    (hsanitized : ∀ host ∈ i.hosts, sanitizeHost host = host)
    (hmem : domain ∈ i.hosts) (hother : ∃ other ∈ i.hosts, other ≠ domain) :
    ¬InsertsAndDeletes check baseDomain projectName domain ingresses i := by
  intro hall
  have hadd : addDomain check baseDomain projectName domain ⟨id, fun _ => .refl _⟩ .ok ingresses =
      (ingresses, true) :=
    Prod.ext (addDomain_of_mem h hmem _ .ok).1 (addDomain_of_mem h hmem _ .ok).2
  obtain ⟨i', hlaws⟩ := hall _ _ _ hadd
  have hremove := removeDomain_ok baseDomain h hsanitized hother
  obtain ⟨i'', hstored, hhosts⟩ := hlaws.restored .ok _ (Prod.ext rfl hremove)
  obtain ⟨_, hwritten⟩ := removeDomain_cases h (Prod.ext rfl hremove)
  have hback := (hhosts domain).mpr hmem
  rw [hwritten, written, Cluster.put_eq, Option.some.injEq] at hstored
  rw [← hstored, hosts_written,
    map_sanitizeHost_eq_self fun host hhost => hsanitized host (List.mem_filter.mp hhost).1,
    List.mem_filter] at hback
  simp at hback

/-- A domain in another spelling is written twice. -/
theorem not_insertsAndDeletes_of_ne (h : Held check projectName ingresses i)
    (hsanitized : ∀ host ∈ i.hosts, sanitizeHost host = host)
    (hdomain : sanitizeHost domain ≠ domain)
    (hadmits : check.admitsHost (sanitizeHost domain) = true) :
    ¬InsertsAndDeletes check baseDomain projectName domain ingresses i := by
  intro hall
  let order : MapOrder := ⟨id, fun _ => .refl _⟩
  have hnot : ∀ {i : IngressObject}, (∀ host ∈ i.hosts, sanitizeHost host = host) →
      domain ∉ i.hosts := fun hsanitized hin => hdomain (hsanitized domain hin)
  have hadd := addDomain_ok baseDomain h (hnot hsanitized) hsanitized hadmits order
  rcases addDomain_cases h hadd with ⟨hin, _⟩ | ⟨_, hadmitted, _⟩
  · exact hnot hsanitized hin
  have hheld := held_written h hadmitted
  obtain ⟨i', hlaws⟩ := hall _ _ _ hadd
  have hsanitized' : ∀ host ∈ (Client.updateIngressHosts baseDomain (sanitizeK8sName projectName)
      (order.val i.hosts.dedup ++ [domain]) i).hosts, sanitizeHost host = host := by
    intro host hhost
    rw [hosts_written] at hhost
    exact sanitized_of_mem_map hhost
  have hi' : i' = Client.updateIngressHosts baseDomain (sanitizeK8sName projectName)
      (order.val i.hosts.dedup ++ [domain]) i :=
    Option.some.inj (hlaws.stored.symm.trans hheld.stored)
  rw [← hi'] at hheld hsanitized'
  have hagain := addDomain_ok baseDomain hheld (hnot hsanitized') hsanitized'
    hadmits order
  have hsame := congrFun ((congrArg Prod.fst hagain).symm.trans (hlaws.again order .ok))
    (sanitizeK8sName projectName)
  rw [hlaws.stored] at hsame
  have hingress := Option.some.inj ((Cluster.put_eq _ _ _).symm.trans hsame)
  have hlength := congrArg (fun i => i.hosts.length) hingress
  simp only [hosts_written, List.length_map, List.length_append, List.length_singleton, order,
    id_eq, List.Nodup.dedup hlaws.nodup] at hlength
  omega

/-- An accepted domain without upper-case letters. -/
def LowerCase (name : String) : Prop := ∀ c ∈ name.toList, c.isUpper = false

instance (name : String) : Decidable (LowerCase name) := List.decidableBAll _ _

theorem sanitizeHost_eq_self_iff (domain : Api.DomainName) :
    sanitizeHost (utf8 domain.val) = utf8 domain.val ↔ LowerCase domain.val := by
  have htable : ∀ n < 0x80,
      hostByte (Char.ofNat n) = UInt8.ofNat n ↔ (Char.ofNat n).isUpper = false := by decide
  have hchars := isDomainChar_of_accepts domain.property
  rw [sanitizeHost_utf8 hchars, utf8_of_ascii fun c hc => toNat_lt_of_isDomainChar (hchars c hc),
    List.map_inj_left]
  refine forall₂_congr fun c hc => ?_
  have hbyte := htable c.toNat (toNat_lt_of_isDomainChar (hchars c hc))
  rwa [Char.ofNat_toNat] at hbyte

/-- Its last label consists of letters. -/
theorem exists_letter (domain : Api.DomainName) :
    ∃ b ∈ sanitizeHost (utf8 domain.val), isLower b = true := by
  have htable : ∀ n < 0x80, (Char.ofNat n).isAlpha = true → Char.ofNat n ≠ '.' ∧
      isLower (hostByte (Char.ofNat n)) = true := by decide
  have hchars := isDomainChar_of_accepts domain.property
  obtain ⟨l, hl, c, hc, hletter⟩ : ∃ l ∈ Dns.labels '.' domain.val.toList,
      ∃ c ∈ l, c.isAlpha = true := by
    have haccepted := domain.property
    rw [Api.acceptsDomainName] at haccepted
    split at haccepted
    · rename_i tld _ _ hreverse
      simp only [Bool.and_eq_true, decide_eq_true_eq] at haccepted
      obtain ⟨⟨⟨⟨hshort, _⟩, halpha⟩, _⟩, _⟩ := haccepted
      have htld : tld ∈ Dns.labels '.' domain.val.toList := by
        rw [Dns.labels, List.splitOn_eq_splitOnP, ← List.mem_reverse, hreverse]
        exact List.mem_cons_self
      obtain ⟨c, rest, rfl⟩ := List.exists_cons_of_length_pos (Nat.zero_lt_of_lt hshort)
      exact ⟨_, htld, c, List.mem_cons_self, List.all_eq_true.mp halpha c List.mem_cons_self⟩
    · cases haccepted
  have hfacts : c.isAlpha = true → c ≠ '.' ∧ isLower (hostByte c) = true := by
    by_cases hascii : c.toNat < 0x80
    · have hbyte := htable c.toNat hascii
      rwa [Char.ofNat_toNat] at hbyte
    · have halpha : c.isAlpha = true → c.toNat < 0x80 := fun h =>
        toNat_lt_of_isDomainChar (by rw [isDomainChar, Char.isAlphanum, h]; rfl)
      exact fun h => absurd (halpha h) hascii
  obtain ⟨hdot, hlower⟩ := hfacts hletter
  rw [sanitizeHost_utf8 hchars]
  exact ⟨_, List.mem_map_of_mem ((Dns.mem_labels_iff hdot).mp ⟨l, hl, hc⟩), hlower⟩

theorem admitsHost_iff (check : HostCheck) (domain : Api.DomainName) :
    check.admitsHost (sanitizeHost (utf8 domain.val)) = true ↔ SubdomainLike domain.val := by
  have htable : ∀ n < 0x80, isDomainChar (Char.ofNat n) = true →
      hostByte (Char.ofNat n) ≠ 0x2a := by decide
  have hchars := isDomainChar_of_accepts domain.property
  have hstar : 0x2a ∉ sanitizeHost (utf8 domain.val) := by
    rw [sanitizeHost_utf8 hchars]
    intro hmem
    obtain ⟨c, hc, hbyte⟩ := List.mem_map.mp hmem
    refine htable c.toNat (toNat_lt_of_isDomainChar (hchars c hc)) ?_ ?_
    · rw [Char.ofNat_toNat]
      exact hchars c hc
    · rwa [Char.ofNat_toNat]
  rw [check.names _ (exists_letter domain) hstar]
  exact isDnsSubdomain_iff domain

/-- For a domain that may be a host, adding and removing are insertion and deletion exactly if it
is in lower case and not a host already, or the only one. -/
theorem insertsAndDeletes_iff (check : HostCheck) (baseDomain projectName : GoString)
    (domain : Api.DomainName) (ingresses : Ingresses) (i : IngressObject)
    (h : Held check projectName ingresses i) (hnodup : i.hosts.Nodup)
    (hsanitized : ∀ host ∈ i.hosts, sanitizeHost host = host) :
    InsertsAndDeletes check baseDomain projectName (utf8 domain.val) ingresses i ↔
      ¬SubdomainLike domain.val ∨ LowerCase domain.val ∧
        (utf8 domain.val ∉ i.hosts ∨ ∀ host ∈ i.hosts, host = utf8 domain.val) := by
  rw [← sanitizeHost_eq_self_iff, ← admitsHost_iff check]
  constructor
  · intro hall
    by_contra hnot
    rw [not_or, not_not] at hnot
    obtain ⟨hadmits, hnot⟩ := hnot
    by_cases hdomain : sanitizeHost (utf8 domain.val) = utf8 domain.val
    · rw [not_and, not_or, not_not] at hnot
      obtain ⟨hmem, hother⟩ := hnot hdomain
      simp only [not_forall] at hother
      obtain ⟨other, hin, hne⟩ := hother
      exact not_insertsAndDeletes_of_mem h hsanitized hmem ⟨other, hin, hne⟩ hall
    · exact not_insertsAndDeletes_of_ne h hsanitized hdomain hadmits hall
  · intro hcond order calls ingresses' hok
    rcases addDomain_cases h hok with ⟨hmem, rfl⟩ | ⟨hmem, hadmitted, rfl⟩
    · have hdomain := hsanitized _ hmem
      have hadmits := List.all_eq_true.mp h.admitted _ hmem
      rw [hdomain] at hcond
      rcases hcond with hrefused | ⟨_, hnotMem | honly⟩
      · exact absurd hadmits hrefused
      · exact absurd hmem hnotMem
      · exact ⟨i, setLaws_of_only h hnodup hdomain hmem honly⟩
    · have hperm : (order.val i.hosts.dedup).Perm i.hosts := by
        have hdedup := order.property i.hosts.dedup
        rwa [hnodup.dedup] at hdedup ⊢
      rcases hcond with hrefused | ⟨hdomain, _⟩
      · refine absurd (List.all_eq_true.mp hadmitted (sanitizeHost (utf8 domain.val)) ?_) hrefused
        rw [hosts_written, List.map_append]
        exact List.mem_append_right _ List.mem_cons_self
      · exact ⟨_, setLaws_of_notMem h hnodup hsanitized hdomain hmem hperm hadmitted⟩

def shopIngress : IngressObject :=
  Client.ingress (utf8 "preview.dev")
    { Client.bareOptions (utf8 "shop") with domains := [utf8 "shop.preview.dev"] }

def shopIngresses : Ingresses :=
  Cluster.put (fun _ => none) (sanitizeK8sName (utf8 "shop")) (some shopIngress)

theorem held_shop : Held .dns1123 (utf8 "shop") shopIngresses shopIngress where
  stored := Cluster.put_eq _ _ _
  app := rfl
  label := by decide
  admitted := by decide

theorem insertsAndDeletes_shop :
    Held .dns1123 (utf8 "shop") shopIngresses shopIngress ∧ shopIngress.hosts.Nodup ∧
      (∀ host ∈ shopIngress.hosts, sanitizeHost host = host) ∧
      InsertsAndDeletes .dns1123 (utf8 "preview.dev") (utf8 "shop") (utf8 "shop.example.com")
        shopIngresses shopIngress := by
  have hnodup : shopIngress.hosts.Nodup := by decide
  have hsanitized : ∀ host ∈ shopIngress.hosts, sanitizeHost host = host := by decide
  refine ⟨held_shop, hnodup, hsanitized, ?_⟩
  exact (insertsAndDeletes_iff .dns1123 (utf8 "preview.dev") (utf8 "shop")
    ⟨"shop.example.com", by decide⟩ shopIngresses shopIngress held_shop hnodup
    hsanitized).mpr (Or.inr (by decide))

/-- A domain with a capital letter. -/
theorem not_insertsAndDeletes :
    ¬∀ (check : HostCheck) (baseDomain projectName : GoString) (domain : Api.DomainName)
      (ingresses : Ingresses) (i : IngressObject), Held check projectName ingresses i →
        i.hosts.Nodup → (∀ host ∈ i.hosts, sanitizeHost host = host) →
          InsertsAndDeletes check baseDomain projectName (utf8 domain.val) ingresses i := by
  intro h
  have haccepted : Api.acceptsDomainName "Shop.example.com" = true := by decide
  have hsanitized : ∀ host ∈ shopIngress.hosts, sanitizeHost host = host := by decide
  have hdomain : sanitizeHost (utf8 "Shop.example.com") ≠ utf8 "Shop.example.com" := by
    decide
  have hadmits : HostCheck.dns1123.admitsHost (sanitizeHost (utf8 "Shop.example.com")) = true := by
    decide
  exact not_insertsAndDeletes_of_ne held_shop hsanitized hdomain hadmits
    (h .dns1123 (utf8 "preview.dev") (utf8 "shop") ⟨"Shop.example.com", haccepted⟩ shopIngresses
      shopIngress held_shop (by decide) hsanitized)

end DomainManager
end Worker
end Code2Cloud
