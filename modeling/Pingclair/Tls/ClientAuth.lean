import Mathlib.Data.List.Find
import Pingclair.Http.Host
import Pingclair.Lib.KeyedFold

/-!
# Sites that demand client certificates

Sites that share a TLS listener are kept in two tables: routing asks one which site answers a host,
the handshake asks the other what a client must prove. Each site is written to both under every name
it has, for routing as the canonical host that the name stands for, for the handshake in lower case.
-/

namespace Pingclair.MutualTls

open ByteText AsciiCase FastCgi List Option

variable {P : Type}

/-- A site's names, and the policy it compiled when it demands client certificates. -/
structure Site (P : Type) where
  name : Option Bytes
  names : List Bytes
  clientAuth : Option P
  deriving DecidableEq

namespace Site

/-- The legacy single name stands in for an empty list. -/
def domains (site : Site P) : List Bytes :=
  if site.names.isEmpty then site.name.toList else site.names

end Site

def isCatchAll (name : Bytes) : Bool :=
  name == ascii "_" || name == ascii "*" || name.head? == some 0x3A

structure RouteTable (P : Type) where
  hosts : AList fun _ : Bytes => Site P
  default : Option (Site P)

namespace RouteTable

def empty : RouteTable P := ⟨∅, none⟩

def registerName (site : Site P) (next : RouteTable P) (domain : Bytes) : RouteTable P :=
  if isCatchAll domain then { next with default := some site }
  else { next with hosts := next.hosts.insert (requestHost domain) site }

def registerSite (next : RouteTable P) (site : Site P) : RouteTable P :=
  if site.domains.isEmpty then { next with default := some site }
  else site.domains.foldl (registerName site) next

def prepareRoutes (servers : List (Site P)) : RouteTable P := servers.foldl registerSite empty

def covers (pattern host : Bytes) : Bool :=
  match pattern.dropPrefix? starDot with
  | some suffix => wildcardHostMatches suffix host
  | none => false

def get (table : RouteTable P) (host : Bytes) : Option (Site P) :=
  match table.hosts.lookup (canonicalHost host) with
  | some site => some site
  | none =>
    match table.hosts.entries.find? fun entry => covers entry.1 (canonicalHost host) with
    | some entry => some entry.2
    | none => table.default

end RouteTable

/-! ### Client authentication -/

def wildcardSuffix (name : Bytes) : Option Bytes :=
  (name.dropPrefix? [star]).filter fun suffix => suffix.head? == some dot

/-- What a listener's clients must prove, by server name. -/
structure ClientAuthTable (P : Type) where
  exact : AList fun _ : Bytes => Option P
  wildcards : List (Bytes × Option P)
  fallback : Option P
  enforcing : Bool
  exact_plain : ∀ name ∈ exact, wildcardSuffix name = none
  wildcards_dotted : ∀ row ∈ wildcards, row.1.head? = some dot

def mergeWildcard (suffix : Bytes) (policy : Option P) :
    List (Bytes × Option P) → List (Bytes × Option P)
  | [] => [(suffix, policy)]
  | row :: rows =>
    if row.1 = suffix then (row.1, policy.or row.2) :: rows
    else row :: mergeWildcard suffix policy rows

theorem keys_mergeWildcard {suf : Bytes} {pol : Option P} {rows : List (Bytes × Option P)}
    {row : Bytes × Option P} (h : row ∈ mergeWildcard suf pol rows) :
    row.1 = suf ∨ row.1 ∈ rows.map Prod.fst := by
  induction rows with
  | nil =>
    simp only [mergeWildcard, mem_singleton] at h
    exact .inl (by rw [h])
  | cons first rows ih =>
    simp only [mergeWildcard] at h
    split at h
    · next heq =>
      rcases mem_cons.mp h with rfl | h
      · exact .inl heq
      · exact .inr (by simp [mem_map_of_mem h])
    · rcases mem_cons.mp h with rfl | h
      · exact .inr (by simp)
      · exact (ih h).imp_right fun h => by simp [h]

theorem wildcardSuffix_eq_some_iff {name suf : Bytes} :
    wildcardSuffix name = some suf ↔ name = star :: suf ∧ suf.head? = some dot := by
  simp [wildcardSuffix, dropPrefix?_eq_some]

theorem wildcardSuffix_isSome_iff {name : Bytes} :
    (wildcardSuffix name).isSome ↔ starDot <+: name := by
  simp only [isSome_iff_exists, wildcardSuffix_eq_some_iff]
  constructor
  · rintro ⟨s, rfl, hd⟩
    obtain ⟨rest, rfl⟩ := List.head?_eq_some_iff.mp hd
    exact ⟨rest, rfl⟩
  · rintro ⟨rest, rfl⟩
    exact ⟨dot :: rest, rfl, rfl⟩

theorem head?_fold_dot {s : Bytes} (h : s.head? = some dot) : (fold s).head? = some dot :=
  (head?_fold_iff (by decide)).mpr h

theorem wildcardSuffix_fold (name : Bytes) :
    wildcardSuffix (fold name) = (wildcardSuffix name).map fold := by
  cases h : wildcardSuffix name with
  | some s =>
    obtain ⟨rfl, hd⟩ := wildcardSuffix_eq_some_iff.mp h
    exact wildcardSuffix_eq_some_iff.mpr ⟨rfl, head?_fold_dot hd⟩
  | none =>
    rw [map_none, ← not_isSome_iff_eq_none, wildcardSuffix_isSome_iff,
      starDot_fold_iff, ← wildcardSuffix_isSome_iff, not_isSome_iff_eq_none]
    exact h

def coversLabel (suffix name : Bytes) : Bool :=
  match name.dropSuffix? suffix with
  | some label => !label.isEmpty && !label.contains dot
  | none => false

namespace ClientAuthTable

def empty : ClientAuthTable P where
  exact := ∅
  wildcards := []
  fallback := none
  enforcing := false
  exact_plain := fun name h => absurd h (AList.notMem_empty name)
  wildcards_dotted := fun _ h => absurd h not_mem_nil

/-- Only a demand overwrites a row. -/
def mergeFallback (policy : Option P) (table : ClientAuthTable P) : ClientAuthTable P :=
  { table with fallback := policy.or table.fallback }

def recordWildcard (policy : Option P) (table : ClientAuthTable P) (suffix : Bytes)
    (h : suffix.head? = some dot) : ClientAuthTable P :=
  { table with
    wildcards := mergeWildcard (fold suffix) policy table.wildcards
    wildcards_dotted := by
      intro row hrow
      rcases keys_mergeWildcard hrow with heq | hmem
      · rw [heq]
        exact head?_fold_dot h
      · obtain ⟨known, hknown, heq⟩ := mem_map.mp hmem
        rw [← heq]
        exact table.wildcards_dotted known hknown }

def recordExact (policy : Option P) (table : ClientAuthTable P) (name : Bytes)
    (h : wildcardSuffix name = none) : ClientAuthTable P :=
  { table with
    exact := table.exact.insert (fold name) (policy.or ((table.exact.lookup (fold name)).getD none))
    exact_plain := by
      intro known hknown
      rcases (AList.mem_insert _).mp hknown with rfl | hknown
      · rw [wildcardSuffix_fold, h, map_none]
      · exact table.exact_plain known hknown }

def recordName (policy : Option P) (table : ClientAuthTable P) (name : Bytes) : ClientAuthTable P :=
  if isCatchAll name then table.mergeFallback policy
  else
    match h : wildcardSuffix name with
    | some suffix => table.recordWildcard policy suffix (wildcardSuffix_eq_some_iff.mp h).2
    | none => table.recordExact policy name h

def record (table : ClientAuthTable P) (names : List Bytes) (policy : Option P) :
    ClientAuthTable P :=
  if names.isEmpty then table.mergeFallback policy
  else names.foldl (recordName policy) table

def insert (table : ClientAuthTable P) (names : List Bytes) (policy : P) : ClientAuthTable P :=
  { table with enforcing := true }.record names (some policy)

def insertWithoutClientAuth (table : ClientAuthTable P) (names : List Bytes) :
    ClientAuthTable P := table.record names none

def policyFor (table : ClientAuthTable P) (sni : Bytes) : Option P :=
  if stripDot sni = [] then table.fallback
  else
    match table.exact.lookup (canonicalHost sni) with
    | some policy => policy
    | none =>
      match table.wildcards.find? fun row => coversLabel row.1 (canonicalHost sni) with
      | some row => row.2
      | none => table.fallback

def isEmpty (table : ClientAuthTable P) : Bool := !table.enforcing

end ClientAuthTable

/-- The part of a listener's preparation that compiles its trust material. -/
def prepareSite (table : ClientAuthTable P) (server : Site P) : ClientAuthTable P :=
  match server.clientAuth with
  | none => table.insertWithoutClientAuth server.domains
  | some compiled => table.insert server.domains compiled

def prepare (servers : List (Site P)) : ClientAuthTable P :=
  servers.foldl prepareSite ClientAuthTable.empty

/-! ### Claims

Both tables are written from the same claims: a site claims each of its names, or every host when it
has none. -/

abbrev Claim (P : Type) := Option Bytes × Site P

def Site.claims (site : Site P) : List (Claim P) :=
  if site.domains.isEmpty then [(none, site)] else site.domains.map (some ·, site)

def claims (sites : List (Site P)) : List (Claim P) := sites.flatMap Site.claims

/-- The entry of the route table that a name is kept in, if it is not every host's. -/
def routeKey (name : Bytes) : Option Bytes :=
  if isCatchAll name then none else some (requestHost name)

/-- The row of the client authentication table that a name is kept in. -/
def authKey (name : Bytes) : Option Bytes :=
  if isCatchAll name then none else some (fold name)

def Claim.routeKey (claim : Claim P) : Option Bytes := claim.1.bind MutualTls.routeKey

def Claim.authKey (claim : Claim P) : Option Bytes := claim.1.bind MutualTls.authKey

namespace RouteTable

/-- What the table holds under a key, where no key stands for every host. -/
def row (table : RouteTable P) : Option Bytes → Option (Site P)
  | none => table.default
  | some key => table.hosts.lookup key

def registerClaim (next : RouteTable P) (claim : Claim P) : RouteTable P :=
  match claim.1 with
  | none => { next with default := some claim.2 }
  | some domain => next.registerName claim.2 domain

theorem registerSite_eq (next : RouteTable P) (site : Site P) :
    next.registerSite site = site.claims.foldl registerClaim next := by
  rw [registerSite, Site.claims]
  cases site.domains.isEmpty
  · simp only [Bool.false_eq_true, if_false, foldl_map]
    rfl
  · rfl

theorem prepareRoutes_eq (srvs : List (Site P)) :
    prepareRoutes srvs = (claims srvs).foldl registerClaim empty := by
  rw [prepareRoutes, claims, foldl_flatMap]
  congr 1
  funext next site
  exact registerSite_eq next site

theorem row_registerClaim (key : Option Bytes) (next : RouteTable P) (claim : Claim P) :
    (next.registerClaim claim).row key =
      if decide (claim.routeKey = key) then some claim.2 else next.row key := by
  obtain ⟨name, site⟩ := claim
  cases name with
  | none => cases key <;> simp [registerClaim, row, Claim.routeKey]
  | some d =>
    cases ha : isCatchAll d with
    | true => cases key <;> simp [registerClaim, registerName, row, Claim.routeKey, routeKey, ha]
    | false =>
      cases key with
      | none => simp [registerClaim, registerName, row, Claim.routeKey, routeKey, ha]
      | some key =>
        by_cases hk : requestHost d = key
        · simp [registerClaim, registerName, row, Claim.routeKey, routeKey, ha, hk]
        · simp [registerClaim, registerName, row, Claim.routeKey, routeKey, ha, hk,
            AList.lookup_insert_ne (Ne.symm hk)]

theorem row_prepareRoutes (srvs : List (Site P)) (key : Option Bytes) :
    (prepareRoutes srvs).row key =
      (((claims srvs).filter fun claim => claim.routeKey = key).getLast?).map Prod.snd := by
  have hst : (empty : RouteTable P).row key = none := by cases key <;> rfl
  rw [prepareRoutes_eq, KeyedFold.view_foldl (fun table => row table key)
    (fun claim : Claim P => decide (claim.routeKey = key)) (fun _ claim => some claim.2)
    (row_registerClaim key), hst, KeyedFold.foldl_replace, or_none]

theorem covers_iff {pattern host : Bytes} :
    covers pattern host = true ↔ wildcardOf host = some pattern := by
  rw [covers]
  cases h : pattern.dropPrefix? starDot with
  | some s =>
    rw [dropPrefix?_eq_some.mp h]
    exact wildcardHostMatches_iff
  | none =>
    simp only [Bool.false_eq_true, false_iff]
    intro hpat
    obtain ⟨l, s, -, -, -, rfl⟩ := wildcardOf_eq_some_iff.mp hpat
    rw [dropPrefix?_eq_some.mpr rfl] at h
    exact some_ne_none _ h

theorem find?_covers (entries : List (Sigma fun _ : Bytes => Site P)) (host : Bytes) :
    (entries.find? fun entry => covers entry.1 host).map Sigma.snd =
      (wildcardOf host).bind fun pattern => entries.dlookup pattern := by
  induction entries with
  | nil => cases wildcardOf host <;> rfl
  | cons entry entries ih =>
    obtain ⟨known, site⟩ := entry
    by_cases hcover : wildcardOf host = some known
    · simp [covers_iff.mpr hcover, hcover]
    · have hfal : covers known host = false := by
        rw [← Bool.not_eq_true, covers_iff]
        exact hcover
      simp only [List.find?_cons, hfal]
      rw [ih]
      cases hwl : wildcardOf host with
      | none => rfl
      | some pattern =>
        have hne : pattern ≠ known := by
          rintro rfl
          exact hcover hwl
        exact (dlookup_cons_ne entries ⟨known, site⟩ hne).symm

/-- The site of a host is found under the host, or else its wildcard, or else every host. -/
theorem get_eq (table : RouteTable P) (host : Bytes) :
    table.get host = ((table.row (some (canonicalHost host))).or
      ((wildcardOf (canonicalHost host)).bind fun pattern => table.row (some pattern))).or
        (table.row none) := by
  have hfi := find?_covers table.hosts.entries (canonicalHost host)
  simp only [row, AList.lookup, get]
  rw [← hfi]
  cases List.dlookup (canonicalHost host) table.hosts.entries with
  | some site => rfl
  | none =>
    cases table.hosts.entries.find? fun entry => covers entry.1 (canonicalHost host) <;> rfl

end RouteTable

namespace ClientAuthTable

/-- What the table holds under a key, where no key stands for every name. -/
def row (table : ClientAuthTable P) : Option Bytes → Option (Option P)
  | none => some table.fallback
  | some key =>
    match wildcardSuffix key with
    | some suffix => (table.wildcards.find? fun row => row.1 = suffix).map Prod.snd
    | none => table.exact.lookup key

def recordClaim (table : ClientAuthTable P) (claim : Claim P) : ClientAuthTable P :=
  match claim.1 with
  | none => table.mergeFallback claim.2.clientAuth
  | some name => table.recordName claim.2.clientAuth name

variable (table : ClientAuthTable P)

theorem record_eq (site : Site P) :
    table.record site.domains site.clientAuth = site.claims.foldl recordClaim table := by
  rw [record, Site.claims]
  cases site.domains.isEmpty
  · simp only [Bool.false_eq_true, if_false, foldl_map]
    rfl
  · rfl

/-- What a claim does to a row: a row is there from its first claim on, and only a demand changes
what it holds. -/
def mergeRow (row : Option (Option P)) (claim : Claim P) : Option (Option P) :=
  some (claim.2.clientAuth.or (row.getD none))

theorem find?_mergeWildcard (suf key : Bytes) (pol : Option P) (rows : List (Bytes × Option P)) :
    ((mergeWildcard suf pol rows).find? fun row => row.1 = key).map Prod.snd =
      if suf = key then
        some (pol.or (((rows.find? fun row => row.1 = key).map Prod.snd).getD none))
      else (rows.find? fun row => row.1 = key).map Prod.snd := by
  induction rows with
  | nil => by_cases h : suf = key <;> simp [mergeWildcard, h]
  | cons row rows ih =>
    obtain ⟨k, held⟩ := row
    by_cases hknown : k = suf
    · subst hknown
      by_cases h : k = key <;> simp [mergeWildcard, h]
    · by_cases h : k = key
      · subst h
        simp [mergeWildcard, hknown, Ne.symm hknown]
      · simp only [mergeWildcard, hknown, if_false, List.find?_cons, h, decide_false]
        exact ih

theorem row_recordName (key : Option Bytes) (pol : Option P) (table : ClientAuthTable P)
    (name : Bytes) :
    (table.recordName pol name).row key =
      if authKey name = key then some (pol.or ((table.row key).getD none))
      else table.row key := by
  cases ha : isCatchAll name with
  | true => cases key <;> simp [recordName, ha, authKey, row, mergeFallback]
  | false =>
    have hfo := wildcardSuffix_fold name
    simp only [recordName, ha, Bool.false_eq_true, if_false, authKey]
    split
    · next s hsuf =>
      rw [hsuf] at hfo
      cases key with
      | none => simp [row, recordWildcard]
      | some key =>
        simp only [row, recordWildcard, some.injEq]
        cases hk : wildcardSuffix key with
        | none =>
          have hne : fold name ≠ key := by
            rintro rfl
            simp [hfo] at hk
          simp [hne]
        | some o =>
          have hiff : fold s = o ↔ fold name = key := by
            obtain ⟨rfl, -⟩ := wildcardSuffix_eq_some_iff.mp hk
            obtain ⟨hn, -⟩ := wildcardSuffix_eq_some_iff.mp hfo
            rw [hn]
            simp
          simp [find?_mergeWildcard, hiff]
    · next hsuf =>
      rw [hsuf] at hfo
      cases key with
      | none => simp [row, recordExact]
      | some key =>
        simp only [row, recordExact, some.injEq]
        by_cases hk : fold name = key
        · subst hk
          simp [hfo]
        · simp [hk, AList.lookup_insert_ne (Ne.symm hk)]

theorem row_recordClaim (key : Option Bytes) (table : ClientAuthTable P) (claim : Claim P) :
    (table.recordClaim claim).row key =
      if decide (claim.authKey = key) then mergeRow (table.row key) claim else table.row key := by
  obtain ⟨name, site⟩ := claim
  cases name with
  | none => cases key <;> simp [recordClaim, row, mergeFallback, Claim.authKey, mergeRow]
  | some name =>
    by_cases h : authKey name = key <;>
      simp [recordClaim, row_recordName, Claim.authKey, mergeRow, h]

theorem row_enforcing (enforcing : Bool) :
    { table with enforcing := enforcing }.row = table.row := by
  funext key
  cases key <;> rfl

theorem row_prepareSite (site : Site P) (key : Option Bytes) :
    (prepareSite table site).row key =
      ((site.claims).filter fun claim => claim.authKey = key).foldl mergeRow (table.row key) := by
  have hrcd : ∀ table : ClientAuthTable P, (table.record site.domains site.clientAuth).row key =
      ((site.claims).filter fun claim => claim.authKey = key).foldl mergeRow (table.row key) := by
    intro table
    rw [record_eq, KeyedFold.view_foldl (fun table => row table key)
      (fun claim : Claim P => decide (claim.authKey = key)) mergeRow (row_recordClaim key)]
  cases hpol : site.clientAuth with
  | none =>
    simpa [prepareSite, hpol, insertWithoutClientAuth] using hrcd table
  | some p =>
    have h := hrcd { table with enforcing := true }
    rw [row_enforcing table true] at h
    simpa [prepareSite, hpol, insert] using h

theorem row_prepare (srvs : List (Site P)) (key : Option Bytes) :
    (prepare srvs).row key =
      ((claims srvs).filter fun claim => claim.authKey = key).foldl mergeRow
        ((empty : ClientAuthTable P).row key) := by
  rw [prepare, claims]
  generalize (empty : ClientAuthTable P) = table
  induction srvs generalizing table with
  | nil => rfl
  | cons site srvs ih =>
    rw [foldl_cons, ih, row_prepareSite, flatMap_cons, filter_append, foldl_append]

theorem coversLabel_iff {suf name : Bytes} (hsuf : suf.head? = some dot) :
    coversLabel suf name = true ↔ wildcardOf name = some (star :: suf) := by
  obtain ⟨rest, rfl⟩ := List.head?_eq_some_iff.mp hsuf
  rw [wildcardOf_eq_some_iff, coversLabel]
  constructor
  · intro h
    cases hc : name.dropSuffix? (dot :: rest) with
    | none => simp [hc] at h
    | some label =>
      simp only [hc, Bool.and_eq_true, Bool.not_eq_true', isEmpty_eq_false_iff,
        contains_eq_mem, decide_eq_false_iff_not] at h
      exact ⟨label, rest, dropSuffix?_eq_some.mp hc, h.1, h.2, rfl⟩
  · rintro ⟨label, rest', rfl, hlab, hd, heq⟩
    obtain rfl : rest = rest' := by simpa [starDot] using heq
    have hc : (label ++ dot :: rest).dropSuffix? (dot :: rest) = some label :=
      dropSuffix?_eq_some.mpr rfl
    simp [hc, hlab, hd]

theorem find?_coversLabel (name : Bytes) :
    (table.wildcards.find? fun row => coversLabel row.1 name).map Prod.snd =
      (wildcardOf name).bind fun pattern => table.row (some pattern) := by
  cases hwl : wildcardOf name with
  | none =>
    have hnone : table.wildcards.find? (fun row => coversLabel row.1 name) = none := by
      rw [List.find?_eq_none]
      intro row hrow
      rw [coversLabel_iff (table.wildcards_dotted row hrow), hwl]
      simp
    rw [hnone]
    rfl
  | some pattern =>
    obtain ⟨l, rest, -, -, -, rfl⟩ := wildcardOf_eq_some_iff.mp hwl
    have hsuf : wildcardSuffix (starDot ++ rest) = some (dot :: rest) :=
      wildcardSuffix_eq_some_iff.mpr ⟨rfl, rfl⟩
    refine congrArg (Option.map Prod.snd) (List.find?_congr ?_)
    intro row hrow
    rw [Bool.eq_iff_iff, coversLabel_iff (table.wildcards_dotted row hrow), hwl]
    simp [starDot, eq_comm]

theorem lookup_exact_of_wildcard {name suf : Bytes}
    (h : wildcardSuffix name = some suf) : table.exact.lookup name = none := by
  rw [AList.lookup_eq_none]
  intro hmem
  rw [table.exact_plain name hmem] at h
  simp at h

/-- The policy for a name is found under the name, or else its wildcard, or else every name. -/
theorem policyFor_eq {sni : Bytes} (h : stripDot sni ≠ []) :
    table.policyFor sni = (((table.row (some (canonicalHost sni))).or
      ((wildcardOf (canonicalHost sni)).bind fun pattern => table.row (some pattern))).or
        (table.row none)).getD none := by
  have hfi := find?_coversLabel table (canonicalHost sni)
  simp only [policyFor, h, if_false]
  cases hsuf : wildcardSuffix (canonicalHost sni) with
  | none =>
    have hrow : table.row (some (canonicalHost sni)) = table.exact.lookup (canonicalHost sni) := by
      simp [row, hsuf]
    rw [hrow, ← hfi]
    cases table.exact.lookup (canonicalHost sni) with
    | some p => rfl
    | none =>
      cases table.wildcards.find? fun row => coversLabel row.1 (canonicalHost sni) <;> rfl
  | some s =>
    -- A wildcard that is asked for as a name is the wildcard above that name.
    have hwl : wildcardOf (canonicalHost sni) = some (canonicalHost sni) := by
      obtain ⟨rest, hrest⟩ := wildcardSuffix_isSome_iff.mp (isSome_of_mem hsuf)
      rw [← hrest]
      exact wildcardOf_starDot rest
    rw [hwl, bind_some] at hfi ⊢
    rw [lookup_exact_of_wildcard table hsuf, ← hfi]
    cases table.wildcards.find? fun row => coversLabel row.1 (canonicalHost sni) <;> rfl

end ClientAuthTable

end Pingclair.MutualTls
