import Code2Cloud.Base.Dns
import Code2Cloud.Worker.Labels

/-!
# The routing of an ingress

The rules and certificates that `CreateOrUpdateIngress` and `UpdateIngressHosts` make of a list of
domains: that they are the same, and which hosts the wildcard certificate covers.
-/

namespace Code2Cloud
namespace Worker

open GoString

def dot : UInt8 := 0x2e

/-- The secret of the certificate that is issued for a project's custom domains. -/
def customTLSSecret (name : GoString) : GoString := name ++ utf8 "-custom-tls"

namespace IngressObject

def hosts (i : IngressObject) : List GoString := i.rules.map (·.host)

def tlsHosts (i : IngressObject) : List GoString := i.tls.flatMap (·.hosts)

/-- The hosts that are served with the certificate in this secret. -/
def hostsOf (i : IngressObject) (secretName : GoString) : List GoString :=
  (i.tls.filter fun entry => entry.secretName = secretName).flatMap (·.hosts)

end IngressObject

/-- Every host has its certificate: the wildcard one, or the project's own. -/
structure Routed (baseDomain name : GoString) (i : IngressObject) : Prop where
  perm : i.tlsHosts.Perm i.hosts
  wildcard : ∀ host ∈ i.hosts,
    host ∈ i.hostsOf wildcardTLSSecret ↔ isSubdomain host baseDomain = true
  custom : ∀ host ∈ i.hosts,
    host ∈ i.hostsOf (customTLSSecret name) ↔ isSubdomain host baseDomain = false
  clusterIssuer : i.clusterIssuer = true ↔ ∃ host ∈ i.hosts, isSubdomain host baseDomain = false
  sanitized : ∀ host, host ∈ i.hosts ∨ host ∈ i.tlsHosts → sanitizeHost host = host

/-! ## Building the routing -/

theorem wildcardTLSSecret_ne (name : GoString) : wildcardTLSSecret ≠ customTLSSecret name := by
  intro h
  have hsuffix : utf8 "-custom-tls" <:+ wildcardTLSSecret := h ▸ List.suffix_append name _
  revert hsuffix
  decide

/-- An ingress with the rules and certificates for these sanitised hosts. -/
def Serves (baseDomain name : GoString) (hosts : List GoString) (i : IngressObject) : Prop :=
  i.hosts = hosts ∧
    i.tls = buildTLSEntries name (hosts.filter fun host => isSubdomain host baseDomain)
      (hosts.filter fun host => !isSubdomain host baseDomain) ∧
    i.clusterIssuer = !(hosts.filter fun host => !isSubdomain host baseDomain).isEmpty

variable {baseDomain name : GoString} {hosts : List GoString} {i : IngressObject}

/-- The entry of `buildTLSEntries` for some hosts, if there are any. -/
theorem hostsOf_entry (hosts : List GoString) (secretName t : GoString) :
    ((if hosts.isEmpty then [] else [({ hosts, secretName } : IngressTLS)]).filter
      fun entry => entry.secretName = t).flatMap (·.hosts) =
        if secretName = t then hosts else [] := by
  cases hosts with
  | nil => simp
  | cons host hosts =>
    rw [if_neg (by simp)]
    by_cases ht : secretName = t
    · rw [List.filter_cons_of_pos (by simpa using ht), if_pos ht]
      simp
    · rw [List.filter_cons_of_neg (by simpa using ht), if_neg ht]
      rfl

theorem Serves.hostsOf (h : Serves baseDomain name hosts i) (t : GoString) : i.hostsOf t =
    (if wildcardTLSSecret = t then hosts.filter fun host => isSubdomain host baseDomain else []) ++
      if customTLSSecret name = t then hosts.filter fun host => !isSubdomain host baseDomain
      else [] := by
  rw [IngressObject.hostsOf, h.2.1, buildTLSEntries, List.filter_append, List.flatMap_append,
    hostsOf_entry]
  exact congrArg _ (hostsOf_entry _ _ t)

theorem Serves.wildcardHosts (h : Serves baseDomain name hosts i) :
    i.hostsOf wildcardTLSSecret = hosts.filter fun host => isSubdomain host baseDomain := by
  rw [h.hostsOf, if_pos rfl, if_neg (wildcardTLSSecret_ne name).symm, List.append_nil]

theorem Serves.customHosts (h : Serves baseDomain name hosts i) :
    i.hostsOf (customTLSSecret name) = hosts.filter fun host => !isSubdomain host baseDomain := by
  rw [h.hostsOf, if_neg (wildcardTLSSecret_ne name), if_pos rfl, List.nil_append]

theorem Serves.tlsHosts (h : Serves baseDomain name hosts i) : i.tlsHosts =
    (hosts.filter fun host => isSubdomain host baseDomain) ++
      hosts.filter fun host => !isSubdomain host baseDomain := by
  have hentry : ∀ (hosts : List GoString) (secretName : GoString),
      (if hosts.isEmpty then [] else [({ hosts, secretName } : IngressTLS)]).flatMap (·.hosts) =
        hosts := by
    intro hosts secretName
    cases hosts <;> simp
  rw [IngressObject.tlsHosts, h.2.1, buildTLSEntries, List.flatMap_append, hentry]
  exact congrArg _ (hentry _ _)

theorem routed_of_serves (h : Serves baseDomain name hosts i)
    (hsanitized : ∀ host ∈ hosts, sanitizeHost host = host) : Routed baseDomain name i where
  perm := by
    rw [h.tlsHosts, h.1]
    exact List.filter_append_perm _ hosts
  wildcard := fun host hhost => by
    rw [h.1] at hhost
    rw [h.wildcardHosts, List.mem_filter]
    exact and_iff_right hhost
  custom := fun host hhost => by
    rw [h.1] at hhost
    rw [h.customHosts, List.mem_filter, Bool.not_eq_true']
    exact and_iff_right hhost
  clusterIssuer := by
    rw [h.2.2, h.1, Bool.not_eq_true', List.isEmpty_eq_false_iff, ne_eq, List.filter_eq_nil_iff]
    simp
  sanitized := fun host hhost => by
    rw [h.tlsHosts, h.1, (List.filter_append_perm _ hosts).mem_iff, or_self] at hhost
    exact hsanitized host hhost

/-! ## The two writers -/

theorem serves_ingress (baseDomain : GoString) (opts : DeployOptions) :
    Serves baseDomain (sanitizeK8sName opts.projectName) (Client.allHosts opts)
      (Client.ingress baseDomain opts) := by
  exact ⟨(hosts_buildIngressRules _ _).trans (map_sanitizeHost_allHosts opts), rfl, rfl⟩

theorem serves_updateIngressHosts (baseDomain name : GoString) (hosts : List GoString)
    (i : IngressObject) : Serves baseDomain name (hosts.map sanitizeHost)
      (Client.updateIngressHosts baseDomain name hosts i) := by
  exact ⟨hosts_buildIngressRules hosts name, rfl, rfl⟩

theorem allHosts_eq {opts : DeployOptions} (h : ∀ domain ∈ opts.domains, domain ≠ []) :
    Client.allHosts opts = opts.domains.map sanitizeHost := by
  rw [Client.allHosts, List.filter_eq_self.mpr]
  simpa using h

/-- Writing the hosts again that a deployment wrote changes nothing of the routing. -/
theorem same_routing (baseDomain : GoString) (opts : DeployOptions)
    (hname : sanitizeK8sName (sanitizeK8sName opts.projectName) = sanitizeK8sName opts.projectName)
    (hdomains : ∀ domain ∈ opts.domains, domain ≠ []) :
    let created := Client.ingress baseDomain opts
    let updated := Client.updateIngressHosts baseDomain (Client.updateName opts.projectName)
      opts.domains created
    (updated.rules = created.rules ∧ updated.tls = created.tls ∧
      updated.clusterIssuer = created.clusterIssuer) ∧
      Routed baseDomain (sanitizeK8sName opts.projectName) created ∧
      Routed baseDomain (sanitizeK8sName opts.projectName) updated := by
  intro created updated
  have hupdatedName : updated = Client.updateIngressHosts baseDomain
      (sanitizeK8sName opts.projectName) opts.domains created :=
    congrArg (fun name => Client.updateIngressHosts baseDomain name opts.domains created) hname
  have hhosts := allHosts_eq hdomains
  have hcreated : Serves baseDomain (sanitizeK8sName opts.projectName)
      (opts.domains.map sanitizeHost) created := hhosts ▸ serves_ingress baseDomain opts
  have hupdated := serves_updateIngressHosts baseDomain (sanitizeK8sName opts.projectName)
    opts.domains created
  rw [← hupdatedName] at hupdated
  have hrules : updated.rules = created.rules := by
    rw [hupdatedName]
    change buildIngressRules opts.domains _ = buildIngressRules (Client.allHosts opts) _
    rw [hhosts, buildIngressRules, buildIngressRules, List.map_map]
    refine List.map_congr_left fun domain _ => ?_
    rw [Function.comp_apply, sanitizeHost_sanitizeHost]
  exact ⟨⟨hrules, hupdated.2.1.trans hcreated.2.1.symm, hupdated.2.2.trans hcreated.2.2.symm⟩,
    routed_of_serves hcreated fun _ => sanitized_of_mem_map,
    routed_of_serves hupdated fun _ => sanitized_of_mem_map⟩

/-- A preview host, spelled with its scheme, and a custom one. -/
def shopDomains : List GoString := [utf8 "https://shop.Preview.dev/", utf8 "Shop.com"]

theorem same_routing_shop :
    let opts := { Client.bareOptions (utf8 "shop") with domains := shopDomains }
    let created := Client.ingress (utf8 "preview.dev") opts
    sanitizeK8sName (sanitizeK8sName (utf8 "shop")) = sanitizeK8sName (utf8 "shop") ∧
      (∀ domain ∈ shopDomains, domain ≠ []) ∧
      (Client.updateIngressHosts (utf8 "preview.dev") (Client.updateName (utf8 "shop"))
        shopDomains created).rules = created.rules ∧
      Routed (utf8 "preview.dev") (utf8 "shop") created := by
  intro opts created
  have hname : sanitizeK8sName (sanitizeK8sName (utf8 "shop")) = sanitizeK8sName (utf8 "shop") := by
    decide
  have hdomains : ∀ domain ∈ shopDomains, domain ≠ [] := by decide
  have hshop : sanitizeK8sName (utf8 "shop") = utf8 "shop" := by decide
  obtain ⟨⟨hrules, _, _⟩, hcreated, _⟩ := same_routing (utf8 "preview.dev") opts hname hdomains
  refine ⟨hname, hdomains, hrules, ?_⟩
  have hopts : sanitizeK8sName opts.projectName = utf8 "shop" := hshop
  rwa [hopts] at hcreated

/-! ## The wildcard certificate -/

abbrev DnsLabel (s : GoString) : Prop := Dns.Label isNameByte dash s

/-- A certificate for `*.<baseDomain>` is good for the host. -/
def CoveredBy (baseDomain host : GoString) : Prop :=
  ∃ label, DnsLabel label ∧ toLower host = label ++ dot :: toLower baseDomain

/-- The wildcard certificate is used for hosts that it covers, and the others have their own. -/
structure WellCertified (baseDomain name : GoString) (i : IngressObject) : Prop where
  covered : ∀ host ∈ i.hostsOf wildcardTLSSecret, CoveredBy baseDomain host
  own : ∀ host ∈ i.hosts, host ∉ i.hostsOf wildcardTLSSecret →
    host ∈ i.hostsOf (customTLSSecret name) ∧ i.clusterIssuer = true

/-- The domain is not the base domain itself, and what it has in front of the base domain, if it
ends in it, is one label. -/
def Fits (baseDomain domain : GoString) : Prop :=
  let host := sanitizeHost domain
  let base := dot :: toLower baseDomain
  equalFold host baseDomain = false ∧
    (base <:+ host → DnsLabel (host.take (host.length - base.length)))

instance (baseDomain domain : GoString) : Decidable (Fits baseDomain domain) := instDecidableAnd

theorem fits_iff {baseDomain domain : GoString} : Fits baseDomain domain ↔
    equalFold (sanitizeHost domain) baseDomain = false ∧
      ∀ front, sanitizeHost domain = front ++ dot :: toLower baseDomain → DnsLabel front := by
  refine and_congr_right fun _ => ⟨fun h front hfront => ?_, fun h hbase => ?_⟩
  · have hlabel := h ⟨front, hfront.symm⟩
    rwa [hfront, List.length_append, Nat.add_sub_cancel, List.take_left] at hlabel
  · obtain ⟨front, hfront⟩ := hbase
    have hlabel := h front hfront.symm
    rwa [← hfront, List.length_append, Nat.add_sub_cancel, List.take_left]

theorem toLower_sanitizeHost (host : GoString) : toLower (sanitizeHost host) = sanitizeHost host :=
  toLower_toLower _

theorem isSubdomain_iff {host : GoString} (hhost : toLower host = host) (hbase : baseDomain ≠ []) :
    isSubdomain host baseDomain = true ↔
      (∃ front, host = front ++ dot :: toLower baseDomain) ∨ equalFold host baseDomain = true := by
  have hempty : baseDomain.isEmpty = false := by simpa using hbase
  rw [isSubdomain, hempty, if_neg Bool.false_ne_true, Bool.or_eq_true,
    List.isSuffixOf_iff_suffix, hhost]
  refine or_congr_left ⟨?_, ?_⟩
  · rintro ⟨front, hfront⟩
    exact ⟨front, hfront.symm⟩
  · rintro ⟨front, rfl⟩
    exact ⟨front, rfl⟩

theorem ascii_of_label {label : GoString} (h : DnsLabel label) {b : UInt8} (hb : b ∈ label) :
    b.toNat < 0x80 := by
  rcases h.chars b hb with hname | rfl
  · simp only [isNameByte, isLower, isDigit, Bool.or_eq_true, Bool.and_eq_true,
      decide_eq_true_eq, UInt8.le_iff_toNat_le] at hname
    have htoNat : (0x7a : UInt8).toNat = 0x7a ∧ (0x39 : UInt8).toNat = 0x39 := ⟨rfl, rfl⟩
    omega
  · decide

/-- A host with a label in front of the base domain is not the base domain. -/
theorem equalFold_eq_false_of_label {label host : GoString} (hlabel : DnsLabel label)
    (h : host = label ++ dot :: toLower baseDomain) : equalFold host baseDomain = false := by
  rw [← Bool.not_eq_true]
  intro hfold
  have hlength := length_runes_of_equalFold hfold
  have hdot : ∀ b ∈ label ++ [dot], b.toNat < 0x80 := by
    intro b hb
    rcases List.mem_append.mp hb with hb | hb
    · exact ascii_of_label hlabel hb
    · rw [List.mem_singleton.mp hb]
      decide
  rw [h, List.append_cons, runes_append_of_ascii hdot, List.length_append, length_runes_toLower]
    at hlength
  simp at hlength

/-- The hosts that are given the wildcard certificate and are covered by it. -/
theorem covered_iff_fits (hbase : baseDomain ≠ []) (domain : GoString) :
    (isSubdomain (sanitizeHost domain) baseDomain = true →
      CoveredBy baseDomain (sanitizeHost domain)) ↔ Fits baseDomain domain := by
  rw [isSubdomain_iff (toLower_sanitizeHost domain) hbase, CoveredBy, toLower_sanitizeHost,
    fits_iff]
  constructor
  · intro h
    refine ⟨?_, fun front hfront => ?_⟩
    · by_contra hfold
      obtain ⟨label, hlabel, hhost⟩ := h (Or.inr (by simpa using hfold))
      exact hfold (equalFold_eq_false_of_label hlabel hhost)
    · obtain ⟨label, hlabel, hhost⟩ := h (Or.inl ⟨front, hfront⟩)
      rw [hfront] at hhost
      rwa [List.append_cancel_right hhost]
  · rintro ⟨hfold, hfront⟩ (⟨front, h⟩ | h)
    · exact ⟨front, hfront front h, h⟩
    · rw [hfold] at h
      cases h

theorem wellCertified_iff (hbase : baseDomain ≠ []) {domains : List GoString}
    (h : Serves baseDomain name (domains.map sanitizeHost) i) :
    WellCertified baseDomain name i ↔ ∀ domain ∈ domains, Fits baseDomain domain := by
  have hcovered : (∀ host ∈ i.hostsOf wildcardTLSSecret, CoveredBy baseDomain host) ↔
      ∀ domain ∈ domains, Fits baseDomain domain := by
    rw [h.wildcardHosts]
    simp only [List.mem_filter, List.mem_map]
    constructor
    · intro hall domain hdomain
      exact (covered_iff_fits hbase domain).mp fun hsub => hall _ ⟨⟨domain, hdomain, rfl⟩, hsub⟩
    · rintro hall _ ⟨⟨domain, hdomain, rfl⟩, hsub⟩
      exact (covered_iff_fits hbase domain).mpr (hall domain hdomain) hsub
  rw [← hcovered]
  refine ⟨WellCertified.covered, fun hall => ⟨hall, fun host hhost hnot => ?_⟩⟩
  have hrouted := routed_of_serves h fun _ => sanitized_of_mem_map
  have hsub : isSubdomain host baseDomain = false := by
    rw [← Bool.not_eq_true]
    exact fun hsub => hnot ((hrouted.wildcard host hhost).mpr hsub)
  exact ⟨(hrouted.custom host hhost).mpr hsub, hrouted.clusterIssuer.mpr ⟨host, hhost, hsub⟩⟩

/-- Both writers use the wildcard certificate rightly exactly for lists of domains that fit. -/
theorem wildcard_covers_iff (baseDomain : GoString) (hbase : baseDomain ≠ [])
    (opts : DeployOptions) (name : GoString) (hosts : List GoString) (i : IngressObject) :
    (WellCertified baseDomain (sanitizeK8sName opts.projectName) (Client.ingress baseDomain opts) ↔
      ∀ domain ∈ opts.domains, domain ≠ [] → Fits baseDomain domain) ∧
    (WellCertified baseDomain name (Client.updateIngressHosts baseDomain name hosts i) ↔
      ∀ host ∈ hosts, Fits baseDomain host) := by
  refine ⟨?_, wellCertified_iff hbase (serves_updateIngressHosts baseDomain name hosts i)⟩
  rw [wellCertified_iff hbase (serves_ingress baseDomain opts)]
  simp

theorem wildcard_covers_shop :
    let opts := { Client.bareOptions (utf8 "shop") with domains := shopDomains }
    utf8 "preview.dev" ≠ [] ∧ WellCertified (utf8 "preview.dev")
      (sanitizeK8sName (utf8 "shop")) (Client.ingress (utf8 "preview.dev") opts) := by
  intro opts
  have hbase : utf8 "preview.dev" ≠ [] := by decide
  have hfits : ∀ domain ∈ shopDomains, Fits (utf8 "preview.dev") domain := by decide
  have hiff := wildcard_covers_iff (utf8 "preview.dev") hbase opts [] []
    (Client.ingress (utf8 "preview.dev") opts)
  exact ⟨hbase, hiff.1.mpr fun domain hdomain _ => hfits domain hdomain⟩

/-- A domain two labels below the base domain. -/
theorem not_wildcard_covers :
    ¬∀ (baseDomain : GoString) (opts : DeployOptions), baseDomain ≠ [] →
      WellCertified baseDomain (sanitizeK8sName opts.projectName)
        (Client.ingress baseDomain opts) := by
  intro h
  let opts := { Client.bareOptions (utf8 "shop") with domains := [utf8 "a.b.preview.dev"] }
  have hbase : utf8 "preview.dev" ≠ [] := by decide
  have hallHosts : Client.allHosts opts = [utf8 "a.b.preview.dev"].map sanitizeHost := by
    decide
  have hserves := serves_ingress (utf8 "preview.dev") opts
  rw [hallHosts] at hserves
  have hfits := (wellCertified_iff hbase hserves).mp (h (utf8 "preview.dev") opts hbase)
  exact absurd (hfits _ List.mem_cons_self) (by decide)

end Worker
end Code2Cloud
