import Mathlib.Data.List.Nodup
import Pingclair.Caddyfile.SiteAddress
import Pingclair.Lib.Fallible

/-!
# What becomes of site addresses

An address is a scheme, a host and a port, each of which may be left out. The adapter reads these
rightly, but lets others through: a port that is no number, an IPv6 address without brackets, a
path. Further keys that have neither a colon nor a dot are passed over.
-/

namespace Pingclair

open ByteText IpAddr Numerals List

namespace Caddyfile

def Scheme.mark : Scheme → Bytes
  | .http => httpMark
  | .https => httpsMark

def PlainHost (host : Bytes) : Prop :=
  host ≠ [] ∧ ∀ b ∈ [colon, slash, openBracket, closeBracket], b ∉ host

def LiteralHost (host : Bytes) : Prop :=
  ∃ literal address, host = openBracket :: (literal ++ [closeBracket]) ∧
    (∀ b ∈ [slash, openBracket, closeBracket], b ∉ literal) ∧
    IpAddr.parse literal = some (.v6 address)

structure Address where
  scheme : Option Scheme
  host : Option Bytes
  port : Option Bytes
  host_ok : ∀ h ∈ host, PlainHost h ∨ LiteralHost h
  port_ok : ∀ p ∈ port, (parsePort p).isSome
  not_empty : scheme.isSome ∨ host.isSome ∨ port.isSome

namespace Address

def rest (a : Address) : Bytes := a.host.getD [] ++ (a.port.map (colon :: ·)).getD []

def text (a : Address) : Bytes := (a.scheme.map Scheme.mark).getD [] ++ a.rest

def portNumber (a : Address) : Option Nat := a.port.bind parsePort

/-- A bare port, a bare scheme or a wildcard IP address. -/
def Hostless (a : Address) : Prop := ∀ h ∈ a.host, isWildcardHost h = true

end Address

variable {b : UInt8} {s : Bytes}

theorem not_mem_of_digitValue (hb : digitValue b = none) {sofar n : Nat}
    (h : parseDigits sofar s = some n) : b ∉ s := by
  induction s generalizing sofar with
  | nil => simp
  | cons d s ih =>
    rw [parseDigits] at h
    cases hd : digitValue d with
    | none => simp [hd] at h
    | some value =>
      simp only [hd] at h
      simp only [mem_cons, not_or]
      refine ⟨?_, ih h⟩
      rintro rfl
      simp [hb] at hd

theorem not_mem_of_parsePort (hb : digitValue b = none) (hplus : b ≠ 0x2B)
    (h : (parsePort s).isSome) : b ∉ s := by
  obtain ⟨n, hn⟩ := Option.isSome_iff_exists.mp h
  simp only [parsePort, parseUnsigned] at hn
  split at hn
  · simp at hn
  · obtain ⟨hdg, -⟩ := Option.filter_eq_some_iff.mp hn
    have hnt := not_mem_of_digitValue hb hdg
    cases hplusSign : s.dropPrefix? [0x2B] with
    | none => simpa [hplusSign] using hnt
    | some rest =>
      rw [hplusSign] at hnt
      rw [dropPrefix?_eq_some.mp hplusSign]
      simpa [hplus] using hnt

/-! ### Reading an address -/

theorem dropPrefix?_eq_none_of_not_mem {t : Bytes} (ht : b ∈ t) (hs : b ∉ s) :
    s.dropPrefix? t = none := by
  cases h : s.dropPrefix? t with
  | none => rfl
  | some u =>
    rw [dropPrefix?_eq_some.mp h] at hs
    exact absurd (mem_append_left u ht) hs

namespace Address

variable (a : Address)

theorem colon_not_mem_port : ∀ p ∈ a.port, colon ∉ p := fun p hp =>
  not_mem_of_parsePort (by decide) (by decide) (a.port_ok p hp)

theorem slash_not_mem_host : ∀ h ∈ a.host, slash ∉ h := by
  intro h hh
  rcases a.host_ok h hh with hpl | ⟨l, address, rfl, hlit, -⟩
  · exact hpl.2 slash (by simp)
  · have hsl := hlit slash (by simp)
    simp only [mem_cons, mem_append, not_mem_nil, or_false, not_or]
    exact ⟨by decide, hsl, by decide⟩

theorem slash_not_mem_rest : slash ∉ a.rest := by
  have hh : slash ∉ a.host.getD [] := by
    cases h : a.host with
    | none => simp
    | some host => exact a.slash_not_mem_host host h
  have hpt : slash ∉ (a.port.map (colon :: ·)).getD [] := by
    cases h : a.port with
    | none => simp
    | some port =>
      have hsl : slash ∉ port := not_mem_of_parsePort (by decide) (by decide) (a.port_ok port h)
      simp only [Option.map_some, Option.getD_some, mem_cons, not_or]
      exact ⟨by decide, hsl⟩
  simp [rest, hh, hpt]

theorem splitScheme_text : splitScheme a.text = (a.scheme.getD .http, a.rest) := by
  cases hsch : a.scheme with
  | none =>
    simp only [splitScheme, text, hsch, Option.map_none, Option.getD_none, nil_append]
    rw [dropPrefix?_eq_none_of_not_mem (b := slash) (by decide) a.slash_not_mem_rest,
      dropPrefix?_eq_none_of_not_mem (b := slash) (by decide) a.slash_not_mem_rest]
  | some scheme =>
    have hdr : a.text.dropPrefix? scheme.mark = some a.rest :=
      dropPrefix?_eq_some.mpr (by simp [text, hsch])
    cases scheme with
    | https => simp [splitScheme, show a.text.dropPrefix? httpsMark = _ from hdr]
    | http =>
      have hnone : a.text.dropPrefix? httpsMark = none := by
        cases h : a.text.dropPrefix? httpsMark with
        | none => rfl
        | some u =>
          have ht := (dropPrefix?_eq_some.mp hdr).symm.trans (dropPrefix?_eq_some.mp h)
          have hfifth : some colon = some (0x73 : UInt8) := congrArg (·[4]?) ht
          exact absurd hfifth (by decide)
      simp [splitScheme, show a.text.dropPrefix? httpMark = _ from hdr, hnone]

theorem splitHostPort_plain {host : Bytes} (hh : a.host = some host) (hpl : PlainHost host)
    (defaultPort : Nat) :
    splitHostPort a.rest defaultPort =
      some (host, a.portNumber.getD defaultPort, a.port.isSome) := by
  obtain ⟨hne, hn⟩ := hpl
  have hcol : colon ∉ host := hn colon (by simp)
  obtain ⟨f, host, rfl⟩ := exists_cons_of_ne_nil hne
  have hf : f ≠ colon ∧ f ≠ openBracket := by
    constructor
    · rintro rfl
      exact hcol mem_cons_self
    · rintro rfl
      exact hn openBracket (by simp) mem_cons_self
  have hrest : a.rest = f :: (host ++ (a.port.map (colon :: ·)).getD []) := by
    simp [rest, hh]
  have hdr : a.rest.dropPrefix? [colon] = none := by simp [hrest, List.dropPrefix?, hf.1]
  have hbr : bracketed a.rest = none := by simp [bracketed, hrest, hf.2]
  simp only [splitHostPort, hdr, hbr]
  cases hpt : a.port with
  | none =>
    have hsp : rsplitOnce colon a.rest = none := by
      rw [hrest, hpt, rsplitOnce, rfind_of_not_mem (by simpa using hcol), Option.map_none]
    simp only [hsp]
    simp [portNumber, hpt, hrest]
  | some port =>
    have hsp : rsplitOnce colon a.rest = some (f :: host, port) := by
      have hfi : rfind colon (f :: host ++ colon :: port) = some (f :: host).length :=
        rfind_append (a.colon_not_mem_port port hpt)
      rw [hrest, hpt, rsplitOnce]
      simp only [Option.map_some, Option.getD_some, ← cons_append, hfi]
      simp
    obtain ⟨n, hnum⟩ := Option.isSome_iff_exists.mp (a.port_ok port hpt)
    simp [hsp, portNumber, hpt, hnum]

theorem splitHostPort_literal {host : Bytes} (hh : a.host = some host)
    (hlit : LiteralHost host) (defaultPort : Nat) :
    splitHostPort a.rest defaultPort =
      some (host, a.portNumber.getD defaultPort, a.port.isSome) := by
  obtain ⟨literal, address, rfl, hn, hps⟩ := hlit
  have hrest : a.rest =
      openBracket :: literal ++ closeBracket :: (a.port.map (colon :: ·)).getD [] := by
    simp [rest, hh]
  have hdr : a.rest.dropPrefix? [colon] = none := by
    rw [hrest]
    rfl
  have hcls : closeBracket ∉ openBracket :: literal := by
    simp only [mem_cons, not_or]
    exact ⟨by decide, hn closeBracket (by simp)⟩
  have hbr : bracketed a.rest =
      some (openBracket :: (literal ++ [closeBracket]), (a.port.map (colon :: ·)).getD []) := by
    rw [bracketed, hrest, splitOnce_append hcls]
    simp
  have hip : isIpLiteral (openBracket :: (literal ++ [closeBracket])) = true := by
    have hop : (openBracket :: (literal ++ [closeBracket])).dropPrefix? [openBracket] =
        some (literal ++ [closeBracket]) := dropPrefix?_eq_some.mpr rfl
    have hshut : (literal ++ [closeBracket]).dropSuffix? [closeBracket] = some literal :=
      dropSuffix?_eq_some.mpr rfl
    simp [isIpLiteral, hop, hshut, hps]
  simp only [splitHostPort, hdr, hbr, hip, if_true]
  cases hpt : a.port with
  | none => simp [portNumber, hpt, List.dropPrefix?]
  | some port =>
    obtain ⟨n, hnum⟩ := Option.isSome_iff_exists.mp (a.port_ok port hpt)
    have haf : (colon :: port).dropPrefix? [colon] = some port := dropPrefix?_eq_some.mpr rfl
    simp [portNumber, hpt, hnum, haf]

theorem splitHostPort_rest (h : a.host.isSome ∨ a.port.isSome) (defaultPort : Nat) :
    splitHostPort a.rest defaultPort =
      some (a.host.getD anyHost, a.portNumber.getD defaultPort, a.port.isSome) := by
  cases hh : a.host with
  | none =>
    obtain ⟨port, hpt⟩ := Option.isSome_iff_exists.mp (h.resolve_left (by simp [hh]))
    obtain ⟨n, hnum⟩ := Option.isSome_iff_exists.mp (a.port_ok port hpt)
    have hrest : a.rest = colon :: port := by simp [rest, hh, hpt]
    have hdr : (colon :: port).dropPrefix? [colon] = some port := dropPrefix?_eq_some.mpr rfl
    simp [splitHostPort, hrest, hdr, portNumber, hpt, hnum]
  | some host =>
    rcases a.host_ok host hh with hpl | hlit
    · exact a.splitHostPort_plain hh hpl defaultPort
    · exact a.splitHostPort_literal hh hlit defaultPort

theorem rest_ne_nil (h : a.host.isSome ∨ a.port.isSome) : a.rest ≠ [] := by
  intro hnil
  rcases append_eq_nil_iff.mp hnil with ⟨hhost, hport⟩
  cases hp : a.port with
  | some port => simp [hp] at hport
  | none =>
    obtain ⟨host, hh⟩ := Option.isSome_iff_exists.mp (h.resolve_right (by simp [hp]))
    have hemp : host = [] := by simpa [hh] using hhost
    rcases a.host_ok host hh with hpl | ⟨literal, address, hlit, -⟩
    · exact hpl.1 hemp
    · simp [hemp] at hlit

def parsed (global : GlobalBlock) : ParsedAddress where
  hostname := a.host.getD anyHost
  listen :=
    { scheme := a.scheme.getD .http
      host := if isIpLiteral (a.host.getD anyHost) then a.host.getD anyHost else anyHost
      port := some (a.portNumber.getD (global.defaultPort (a.scheme.getD .http)))
      forcePlaintext := hasSchemeMark a.text && a.scheme.getD .http = .http }
  explicit := hasSchemeMark a.text || a.port.isSome || isIpLiteral (a.host.getD anyHost)

/-- An address that does not begin with a network, and is no bare scheme, is read as it is
meant. -/
theorem parseServerAddress_text (global : GlobalBlock)
    (hnet : hasNetworkPrefix a.text = false) (h : a.host.isSome ∨ a.port.isSome) :
    parseServerAddress a.text global = some (a.parsed global) := by
  simp only [parseServerAddress, hnet, Bool.false_eq_true, if_false, splitScheme_text,
    a.rest_ne_nil h, a.splitHostPort_rest h, Option.map_some]
  rfl

theorem looksLikeUnsupportedAddress_text (hnet : hasNetworkPrefix a.text = true) :
    looksLikeUnsupportedAddress a.text = true := by
  cases hsch : a.scheme with
  | none =>
    have hba : bareAddress a.text = a.text := by
      have ht : a.text = a.rest := by simp [text, hsch]
      rw [bareAddress, ht,
        dropPrefix?_eq_none_of_not_mem (b := slash) (by decide) a.slash_not_mem_rest,
        dropPrefix?_eq_none_of_not_mem (b := slash) (by decide) a.slash_not_mem_rest]
      rfl
    simp [looksLikeUnsupportedAddress, hba, hnet]
  | some scheme =>
    -- What stands before the first slash is the scheme and its colon.
    have hn : hasNetworkPrefix a.text = false := by
      rw [text, hsch]
      cases scheme <;> rfl
    exact absurd (hn.symm.trans hnet) Bool.false_ne_true

end Address

def namesHost (host : Bytes) : Bool := !host.isEmpty && !isWildcardHost host

def hostOf (global : GlobalBlock) (key : Bytes) : Option Bytes :=
  if key = httpMark ∨ key = httpsMark then none
  else
    ((parseServerAddress key global).map ParsedAddress.hostname).filter namesHost

def listenOf (global : GlobalBlock) (key : Bytes) : Option ListenAddr :=
  if key = httpMark then some (schemeListener .http global)
  else if key = httpsMark then some (schemeListener .https global)
  else
    ((parseServerAddress key global).filter ParsedAddress.explicit).map ParsedAddress.listen

def Supported (global : GlobalBlock) (key : Bytes) : Prop :=
  key = httpMark ∨ key = httpsMark ∨ (parseServerAddress key global).isSome ∨
    looksLikeUnsupportedAddress key = false

structure Added (global : GlobalBlock) (keys : List Bytes) (server : ServerBlock) : Prop where
  mem_names : ∀ host, host ∈ server.names ↔ host ∈ keys.filterMap (hostOf global)
  head_names : server.names.head? = (keys.filterMap (hostOf global)).head?
  listens : server.listens = keys.filterMap (listenOf global)
  supported : ∀ key ∈ keys, Supported global key

/-- What one key does to a site. -/
theorem addAddress_spec {global : GlobalBlock} {server after : ServerBlock} {key : Bytes}
    (h : addAddress global server key = .ok after) :
    after.names = server.names ++ ((hostOf global key).filter (· ∉ server.names)).toList ∧
      after.listens = server.listens ++ (listenOf global key).toList ∧
      Supported global key := by
  obtain ⟨-, -, h⟩ := Fallible.bind_eq_ok.mp h
  obtain ⟨-, -, h⟩ := Fallible.bind_eq_ok.mp h
  rw [hostOf, listenOf, Supported]
  split at h
  · next hhttp =>
    cases h
    simp [hhttp]
  · next hhttp =>
    split at h
    · next hhs =>
      have hne : httpsMark ≠ httpMark := by decide
      cases h
      simp [hhs, hne]
    · next hhs =>
      rw [if_neg (not_or.mpr ⟨hhttp, hhs⟩), if_neg hhttp, if_neg hhs]
      split at h
      · next parsed hpsd =>
        cases h
        rw [hpsd]
        refine ⟨?_, ?_, by simp⟩
        · have hns : (server.addParsed parsed).names =
              if namesHost parsed.hostname ∧ parsed.hostname ∉ server.names then
                server.names ++ [parsed.hostname]
              else server.names := by
            simp [ServerBlock.addParsed, namesHost, and_assoc]
          rw [hns]
          by_cases hn : namesHost parsed.hostname = true <;>
            by_cases hmem : parsed.hostname ∈ server.names <;>
            simp [Option.filter_some, hn, hmem]
        · cases hexp : parsed.explicit <;>
            simp [ServerBlock.addParsed, Option.filter_some, hexp]
      · next hpsd =>
        split at h
        · simp [throw, throwThe, MonadExceptOf.throw] at h
        · next hspt =>
          cases h
          simp [hpsd, hspt]

theorem Added.step {global : GlobalBlock} {keys : List Bytes} {server after : ServerBlock}
    {key : Bytes} (hadd : Added global keys server)
    (h : addAddress global server key = .ok after) : Added global (keys ++ [key]) after := by
  obtain ⟨hns, hlistens, hspt⟩ := addAddress_spec h
  have hone {α : Type} (f : Bytes → Option α) : [key].filterMap f = (f key).toList := by
    cases hf : f key <;> simp [hf]
  refine ⟨fun host => ?_, ?_, ?_, ?_⟩
  · rw [hns, filterMap_append, mem_append, mem_append, ← hadd.mem_names, hone]
    by_cases hmem : host ∈ server.names
    · simp [hmem]
    · simp [hmem, Option.filter_eq_some_iff]
  · rw [hns, filterMap_append, List.head?_append, List.head?_append, ← hadd.head_names, hone]
    cases hfst : server.names with
    | nil => cases hostOf global key <;> simp
    | cons first rest => rfl
  · rw [hlistens, filterMap_append, hadd.listens, hone]
  · exact forall_mem_append.mpr ⟨hadd.supported, forall_mem_singleton.mpr hspt⟩

/-- What a site is made of: the hosts and listeners of its keys, and a name by its first host. -/
theorem added_of_adaptServer {d : SiteKeys} {global : GlobalBlock} {server : ServerBlock}
    (h : adaptServer d global = .ok server) :
    Added global d.names server ∧ ∃ read, server.names = read.names ∧
      server.name = siteName global read := by
  obtain ⟨read, hrd, hsrv⟩ := Fallible.bind_eq_ok.mp h
  cases hsrv
  have had : Added global d.names read := by
    refine Fallible.foldlM_invariant (I := Added global) (fun hdn hst => hdn.step hst) ?_ hrd
    exact ⟨by simp, rfl, rfl, by simp⟩
  exact ⟨⟨had.mem_names, had.head_names, had.listens, had.supported⟩, read, rfl, rfl⟩

namespace Address

variable {a : Address} {global : GlobalBlock}

theorem bare_of_text (h : a.text = httpMark ∨ a.text = httpsMark) :
    a.host = none ∧ a.port = none := by
  have hrest : a.rest = [] := by
    have hsp := congrArg Prod.snd a.splitScheme_text
    rcases h with h | h <;> exact hsp.symm.trans (by rw [h]; decide)
  have hnot : ¬ (a.host.isSome ∨ a.port.isSome) := fun hsome => a.rest_ne_nil hsome hrest
  simpa using hnot

theorem text_of_bare (hh : a.host = none) (hpt : a.port = none) :
    a.text = httpMark ∨ a.text = httpsMark := by
  have hem := a.not_empty
  cases hsch : a.scheme with
  | none => simp [hh, hpt, hsch] at hem
  | some scheme =>
    cases scheme with
    | http => simp [text, rest, hh, hpt, hsch, Scheme.mark]
    | https => simp [text, rest, hh, hpt, hsch, Scheme.mark]

/-- An address that is not refused is a bare scheme, or it is read as it is meant. -/
theorem parse_of_supported (h : Supported global a.text) :
    (a.host = none ∧ a.port = none ∧ (a.text = httpMark ∨ a.text = httpsMark)) ∨
      (a.text ≠ httpMark ∧ a.text ≠ httpsMark ∧
        parseServerAddress a.text global = some (a.parsed global)) := by
  by_cases hmk : a.text = httpMark ∨ a.text = httpsMark
  · obtain ⟨hh, hpt⟩ := bare_of_text hmk
    exact .inl ⟨hh, hpt, hmk⟩
  · have hs : a.host.isSome ∨ a.port.isSome := by
      by_contra hn
      simp only [not_or, Bool.not_eq_true, Option.isSome_eq_false_iff,
        Option.isNone_iff_eq_none] at hn
      exact hmk (text_of_bare hn.1 hn.2)
    rw [not_or] at hmk
    have hnet : hasNetworkPrefix a.text = false := by
      by_contra hnet
      rw [Bool.not_eq_false] at hnet
      have hps : parseServerAddress a.text global = none := by
        simp [parseServerAddress, hnet]
      rcases h with h | h | h | h
      · exact hmk.1 h
      · exact hmk.2 h
      · simp [hps] at h
      · simp [a.looksLikeUnsupportedAddress_text hnet] at h
    exact .inr ⟨hmk.1, hmk.2, a.parseServerAddress_text global hnet hs⟩

theorem namesHost_of_mem {host : Bytes} (h : host ∈ a.host) :
    namesHost host = !isWildcardHost host := by
  have hne : host ≠ [] := by
    rcases a.host_ok host h with hpl | ⟨l, address, rfl, -⟩
    · exact hpl.1
    · simp
  simp [namesHost, hne]

theorem hostOf_text (h : Supported global a.text) :
    hostOf global a.text = a.host.filter fun host => !isWildcardHost host := by
  rcases parse_of_supported h with ⟨hh, -, hmk⟩ | ⟨hhttp, hhs, hps⟩
  · simp [hostOf, hmk, hh]
  · rw [hostOf, if_neg (by simp [hhttp, hhs]), hps]
    cases hh : a.host with
    | none =>
      have hany : namesHost anyHost = false := by decide
      simp [parsed, hh, Option.filter_some, hany]
    | some host =>
      have hns := namesHost_of_mem (a := a) hh
      simp [parsed, hh, Option.filter_some, hns]

theorem listenOf_text (h : Supported global a.text) {p : Nat} (hp : a.portNumber = some p) :
    ∃ listen, listenOf global a.text = some listen ∧ listen.port = some p := by
  have hpt : a.port.isSome = true := by
    cases hpt : a.port with
    | none => simp [portNumber, hpt] at hp
    | some port => rfl
  rcases parse_of_supported h with ⟨-, hnone, -⟩ | ⟨hhttp, hhs, hps⟩
  · simp [hnone] at hpt
  · refine ⟨(a.parsed global).listen, ?_, by simp [parsed, hp]⟩
    have hexp : (a.parsed global).explicit = true := by simp [parsed, hpt]
    simp [listenOf, hhttp, hhs, hps, Option.filter_some, hexp]

end Address

section Groups

variable {global : GlobalBlock}

theorem addToGroup_cases (group : SiteAddressGroup) (address : Bytes)
    (groups : List (SiteAddressGroup × List Bytes)) :
    group ∉ groups.map Prod.fst ∧ addToGroup group address groups = groups ++ [(group, [address])] ∨
      ∃ l grouped r, groups = l ++ (group, grouped) :: r ∧
        addToGroup group address groups = l ++ (group, grouped ++ [address]) :: r := by
  induction groups with
  | nil => exact .inl ⟨by simp, rfl⟩
  | cons first rest ih =>
    obtain ⟨cand, grouped⟩ := first
    rw [addToGroup]
    split
    · next hcand => exact .inr ⟨[], grouped, rest, by rw [hcand]; rfl, by rw [hcand]; rfl⟩
    · next hcand =>
      rcases ih with ⟨hnew, heq⟩ | ⟨l, grouped', r, rfl, heq⟩ <;> rw [heq]
      · exact .inl ⟨not_mem_cons_of_ne_of_not_mem (Ne.symm hcand) hnew, rfl⟩
      · exact .inr ⟨(cand, grouped) :: l, grouped', r, rfl, rfl⟩

/-- How addresses stand in groups: each group once, each address in the group it belongs to. -/
structure Grouped (global : GlobalBlock) (done : List Bytes)
    (groups : List (SiteAddressGroup × List Bytes)) : Prop where
  keys : (groups.map Prod.fst).Nodup
  not_empty : ∀ entry ∈ groups, entry.2 ≠ []
  belongs : ∀ entry ∈ groups, ∀ address ∈ entry.2, siteAddressGroup address global = entry.1
  mem : ∀ address, (∃ entry ∈ groups, address ∈ entry.2) ↔ address ∈ done

theorem Grouped.step {done : List Bytes} {groups : List (SiteAddressGroup × List Bytes)}
    (h : Grouped global done groups) (address : Bytes) :
    Grouped global (done ++ [address])
      (addToGroup (siteAddressGroup address global) address groups) := by
  obtain ⟨hk, hne, hbl, hm⟩ := h
  rcases addToGroup_cases (siteAddressGroup address global) address groups with
    ⟨hnew, heq⟩ | ⟨l, grouped, r, rfl, heq⟩ <;> rw [heq]
  · refine ⟨?_, forall_mem_append.mpr ⟨hne, by simp⟩, forall_mem_append.mpr ⟨hbl, by simp⟩, ?_⟩
    · rw [map_append, nodup_append']
      exact ⟨hk, by simp, by simpa using hnew⟩
    · intro x
      simp only [mem_append, mem_singleton, or_and_right, exists_or, hm, exists_eq_left]
  · simp only [forall_mem_append, forall_mem_cons] at hne hbl
    refine ⟨by simpa using hk, ?_, ?_, fun x => ?_⟩
    · exact forall_mem_append.mpr ⟨hne.1, forall_mem_cons.mpr ⟨by simp, hne.2.2⟩⟩
    · refine forall_mem_append.mpr ⟨hbl.1, forall_mem_cons.mpr ⟨?_, hbl.2.2⟩⟩
      exact forall_mem_append.mpr ⟨hbl.2.1, by simp⟩
    · have := hm x
      simp only [mem_append, mem_cons, or_and_right, exists_or, exists_eq_left] at this ⊢
      rw [← this]
      simp only [or_assoc, or_left_comm, or_comm, not_mem_nil]

theorem grouped_siteAddressGroups (d : SiteKeys) (global : GlobalBlock) :
    Grouped global d.addresses (siteAddressGroups d global) := by
  rw [siteAddressGroups]
  induction d.addresses using List.reverseRecOn with
  | nil => exact ⟨by simp, by simp, by simp, by simp⟩
  | append_singleton dn address ih =>
    rw [foldl_concat]
    exact ih.step address

variable {d : SiteKeys}

theorem stripComma_addresses {key : Bytes} (h : key ∈ d.addresses) : stripComma key = key := by
  obtain ⟨raw, -, rfl⟩ := mem_map.mp h
  exact rdropWhile_idempotent _ _

theorem addresses_of_group {entry : SiteAddressGroup × List Bytes}
    (h : entry ∈ siteAddressGroups d global) :
    SiteKeys.addresses ⟨entry.2.headD [], entry.2.tail⟩ = entry.2 := by
  have hgrd := grouped_siteAddressGroups d global
  have hstr : ∀ key ∈ entry.2, stripComma key = key := fun key hk =>
    stripComma_addresses ((hgrd.mem key).mp ⟨entry, h, hk⟩)
  obtain ⟨f, rest, he⟩ := exists_cons_of_ne_nil (hgrd.not_empty entry h)
  rw [he] at hstr ⊢
  exact (map_congr_left hstr).trans (map_id' _)

theorem mem_addresses_iff (global : GlobalBlock) (d : SiteKeys) (key : Bytes) :
    key ∈ d.addresses ↔ ∃ split ∈ splitSiteAddressGroups d global, key ∈ split.addresses := by
  rw [splitSiteAddressGroups]
  split
  · simp
  · rw [← (grouped_siteAddressGroups d global).mem]
    constructor
    · rintro ⟨entry, he, hk⟩
      exact ⟨_, mem_map_of_mem he, by rwa [addresses_of_group he]⟩
    · rintro ⟨split, hsp, hk⟩
      obtain ⟨entry, he, rfl⟩ := mem_map.mp hsp
      rw [addresses_of_group he] at hk
      exact ⟨entry, he, hk⟩

/-- Two sites of a block have no address in common. -/
theorem eq_of_mem_addresses {split other : SiteKeys} {key : Bytes}
    (hsp : split ∈ splitSiteAddressGroups d global) (ho : other ∈ splitSiteAddressGroups d global)
    (hk : key ∈ split.addresses) (hk' : key ∈ other.addresses) : split = other := by
  rw [splitSiteAddressGroups] at hsp ho
  split at hsp
  · next hone =>
    rw [if_pos hone] at ho
    rw [mem_singleton.mp hsp, mem_singleton.mp ho]
  · next hmy =>
    rw [if_neg hmy] at ho
    obtain ⟨entry, he, rfl⟩ := mem_map.mp hsp
    obtain ⟨entry', he', rfl⟩ := mem_map.mp ho
    rw [addresses_of_group he] at hk
    rw [addresses_of_group he'] at hk'
    have hgrd := grouped_siteAddressGroups d global
    have hgr : entry.1 = entry'.1 :=
      (hgrd.belongs entry he key hk).symm.trans (hgrd.belongs entry' he' key hk')
    rw [inj_on_of_nodup_map hgrd.keys he he' hgr]

end Groups

/-! ### Blocks that keep the meaning of their addresses -/

/-- Every address of a block has a meaning, which its site keeps: the host is among the site's
names, and the port is that of a listener. A site is anonymous only when no address names a
host. -/
structure Kept (d : SiteKeys) (sites : List (SiteKeys × ServerBlock)) : Prop where
  read : ∀ key ∈ d.addresses, ∃ a : Address, a.text = key ∧
    ∃ site ∈ sites, key ∈ site.1.addresses ∧
      (a.Hostless ∨ ∃ host ∈ a.host, host ∈ site.2.names) ∧
      ∀ p, a.portNumber = some p → ∃ listen ∈ site.2.listens, listen.port = some p
  named : ∀ site ∈ sites, site.2.name = anonymous →
    ∀ key ∈ site.1.addresses, ∀ a : Address, a.text = key → a.Hostless

/-- The keys of a site are read as they are meant: those taken for addresses have a meaning,
those passed over name a host that another names as well, and the first host is not the name of
anonymous sites. -/
structure Meant (split : SiteKeys) : Prop where
  readable : ∀ key ∈ split.names, ∃ a : Address, a.text = key
  passedOver : ∀ arg ∈ split.args, isAddressArg arg = false →
    ∃ a : Address, a.text = stripComma arg ∧
      ∃ key ∈ split.names, ∃ b : Address, b.text = key ∧ b.host = a.host
  first : ∀ before key after, split.names = before ++ key :: after →
    (∀ k ∈ before, ∀ a : Address, a.text = k → a.Hostless) →
      ∀ a : Address, a.text = key → a.host ≠ some anonymous

section Sites

variable {d split : SiteKeys} {global : GlobalBlock} {server : ServerBlock}

variable {a : Address} {host : Bytes}

theorem host_of_passedOver {arg : Bytes} (harg : isAddressArg arg = false)
    (ht : a.text = stripComma arg) :
    a.port = none ∧ a.host = some (stripComma arg) ∧ isWildcardHost (stripComma arg) = false := by
  simp only [isAddressArg, Bool.or_eq_false_iff, contains_eq_mem, decide_eq_false_iff_not] at harg
  obtain ⟨⟨⟨-, hcol⟩, hd⟩, -⟩ := harg
  have hsub : stripComma arg ⊆ arg := (List.rdropWhile_prefix _ _).subset
  have hcol' : colon ∉ a.text := fun h => hcol (hsub (ht ▸ h))
  have hd' : dot ∉ stripComma arg := fun h => hd (hsub h)
  have hpt : a.port = none := by
    cases hpt : a.port with
    | none => rfl
    | some port => exact absurd (by simp [Address.text, Address.rest, hpt]) hcol'
  have hsch : a.scheme = none := by
    cases hsch : a.scheme with
    | none => rfl
    | some scheme =>
      have hmk : colon ∈ scheme.mark := by cases scheme <;> decide
      exact absurd (by simp [Address.text, hsch, hmk]) hcol'
  have hh : a.host = some (stripComma arg) := by
    cases hh : a.host with
    | none =>
      have hem := a.not_empty
      simp [hsch, hh, hpt] at hem
    | some host => rw [← ht]; simp [Address.text, Address.rest, hsch, hh, hpt]
  refine ⟨hpt, hh, ?_⟩
  rw [ht] at hcol'
  by_contra hwl
  simp only [isWildcardHost, Bool.not_eq_false, contains_eq_mem, decide_eq_true_eq,
    mem_cons, not_mem_nil, or_false] at hwl
  rcases hwl with hwl | hwl | hwl | hwl <;> rw [hwl] at hcol' hd'
  · exact hcol' (by decide)
  · exact hcol' (by decide)
  · exact hd' (by decide)
  · exact hcol' (by decide)

theorem names_subset_addresses : split.names ⊆ split.addresses := by
  intro key hkey
  rcases mem_cons.mp hkey with rfl | hkey
  · exact mem_cons_self
  · obtain ⟨arg, harg, rfl⟩ := mem_map.mp hkey
    exact mem_cons_of_mem _ (mem_map_of_mem (mem_filter.mp harg).1)

theorem mem_names_or_passedOver {key : Bytes} (h : key ∈ split.addresses) :
    key ∈ split.names ∨ ∃ arg ∈ split.args, isAddressArg arg = false ∧ stripComma arg = key := by
  rcases mem_cons.mp h with rfl | h
  · exact .inl mem_cons_self
  · obtain ⟨arg, harg, rfl⟩ := mem_map.mp h
    cases haddr : isAddressArg arg with
    | true =>
      exact .inl (mem_cons_of_mem _ (mem_map_of_mem (mem_filter.mpr ⟨harg, haddr⟩)))
    | false => exact .inr ⟨arg, harg, haddr, rfl⟩

theorem splitOnceText_eq_none {b : UInt8} {mark s : Bytes} (hmk : b ∈ mark) (hs : b ∉ s) :
    splitOnceText mark s = none := by
  induction s with
  | nil => rfl
  | cons c s ih =>
    rw [splitOnceText, dropPrefix?_eq_none_of_not_mem hmk hs, ih fun h => hs (mem_cons_of_mem c h)]
    rfl

theorem siteName_of_head (hh : host ∈ a.host) (hwl : isWildcardHost host = false)
    (h : server.names.head? = some host) : siteName global server = host := by
  have hn : ∀ stripped, server.names.headD stripped = host := by
    intro stripped
    rw [headD_eq_head?_getD, h, Option.getD_some]
  have hmk : hasSchemeMark host = false := by
    rw [hasSchemeMark, splitOnceText_eq_none (b := slash) (by decide)
      (a.slash_not_mem_host host hh)]
    rfl
  have hhd : host.head? ≠ some colon := by
    intro hhd
    rcases a.host_ok host hh with hpl | ⟨l, address, rfl, -⟩
    · exact hpl.2 colon (by simp) (mem_of_mem_head? hhd)
    · exact absurd (Option.some.inj hhd) (by decide)
  simp only [siteName, hn, hmk, hwl, hhd, Bool.false_eq_true, or_self, if_false]

section Names

variable (had : Added global split.names server)

include had

/-- The first host of a site: the keys before it name none. -/
theorem head_names_iff (host : Bytes) :
    server.names.head? = some host ↔
      ∃ before key after, split.names = before ++ key :: after ∧
        hostOf global key = some host ∧ ∀ k ∈ before, hostOf global k = none := by
  rw [had.head_names, List.head?_filterMap, List.findSome?_eq_some_iff]

theorem hostless_iff (ha : a.text ∈ split.names) : a.Hostless ↔ hostOf global a.text = none := by
  rw [Address.hostOf_text (had.supported _ ha), Address.Hostless]
  cases a.host with
  | none => simp
  | some host => simp [Option.filter_some]

theorem hostOf_eq_some_iff (ha : a.text ∈ split.names) :
    hostOf global a.text = some host ↔ host ∈ a.host ∧ isWildcardHost host = false := by
  rw [Address.hostOf_text (had.supported _ ha)]
  simp

theorem mem_names_iff :
    host ∈ server.names ↔ ∃ key ∈ split.names, hostOf global key = some host := by
  rw [had.mem_names, mem_filterMap]

end Names

/-- A site that keeps its addresses was meant so. -/
theorem meant_of_kept (hsrv : adaptServer split global = .ok server)
    (hrd : ∀ key ∈ split.addresses, ∃ a : Address, a.text = key ∧
      (a.Hostless ∨ ∃ host ∈ a.host, host ∈ server.names))
    (hnm : server.name = anonymous →
      ∀ key ∈ split.addresses, ∀ a : Address, a.text = key → a.Hostless) : Meant split := by
  obtain ⟨had, read, hns, hn⟩ := added_of_adaptServer hsrv
  have hrdb : ∀ key ∈ split.names, ∃ a : Address, a.text = key := by
    intro key hke
    obtain ⟨a, ha, -⟩ := hrd key (names_subset_addresses hke)
    exact ⟨a, ha⟩
  refine ⟨hrdb, ?_, ?_⟩
  · intro arg harg hpas
    have hke : stripComma arg ∈ split.addresses := mem_cons_of_mem _ (mem_map_of_mem harg)
    obtain ⟨a, ha, hh⟩ := hrd _ hke
    obtain ⟨-, hs, hwl⟩ := host_of_passedOver hpas ha
    rcases hh with hh | ⟨host, hmem, hh⟩
    · exact absurd (hh _ hs) (by simp [hwl])
    · obtain ⟨key, hke, hof⟩ := (mem_names_iff had).mp hh
      obtain ⟨b, rfl⟩ := hrdb key hke
      have hb := ((hostOf_eq_some_iff had hke).mp hof).1
      exact ⟨a, ha, b.text, hke, b, rfl, hb.trans hmem.symm⟩
  · rintro before key after hsp hbe a rfl hh
    have hke : a.text ∈ split.names := by simp [hsp]
    have hanon : isWildcardHost anonymous = false := by decide
    have hhd : server.names.head? = some anonymous := by
      refine (head_names_iff had anonymous).mpr ⟨before, a.text, after, hsp, ?_, ?_⟩
      · exact (hostOf_eq_some_iff had hke).mpr ⟨hh, hanon⟩
      · intro k hk
        have hmem : k ∈ split.names := by simp [hsp, hk]
        obtain ⟨b, rfl⟩ := hrdb k hmem
        exact (hostless_iff had hmem).mp (hbe _ hk b rfl)
    rw [hns] at hhd
    have hn' : server.name = anonymous := hn.trans (siteName_of_head hh hanon hhd)
    have hhostless := hnm hn' a.text (names_subset_addresses hke) a rfl
    exact absurd (hhostless _ hh) (by decide)

/-- A site that was meant so keeps its addresses. -/
theorem kept_of_meant (hsrv : adaptServer split global = .ok server) (hmeant : Meant split) :
    (∀ key ∈ split.addresses, ∃ a : Address, a.text = key ∧
      (a.Hostless ∨ ∃ host ∈ a.host, host ∈ server.names) ∧
      ∀ p, a.portNumber = some p → ∃ listen ∈ server.listens, listen.port = some p) ∧
    (server.name = anonymous →
      ∀ key ∈ split.addresses, ∀ a : Address, a.text = key → a.Hostless) := by
  obtain ⟨had, read, hns, hn⟩ := added_of_adaptServer hsrv
  have hpassedOver : ∀ arg ∈ split.args, isAddressArg arg = false →
      ∃ a : Address, a.text = stripComma arg ∧ a.port = none ∧
        a.host = some (stripComma arg) ∧ stripComma arg ∈ server.names := by
    intro arg harg hpas
    obtain ⟨a, ha, key, hke, b, rfl, hh⟩ := hmeant.passedOver arg harg hpas
    obtain ⟨hpt, hs, hwl⟩ := host_of_passedOver hpas ha
    refine ⟨a, ha, hpt, hs, (mem_names_iff had).mpr ⟨b.text, hke, ?_⟩⟩
    exact (hostOf_eq_some_iff had hke).mpr ⟨hh.trans hs, hwl⟩
  constructor
  · intro key hke
    rcases mem_names_or_passedOver hke with hke | ⟨arg, harg, hpas, rfl⟩
    · obtain ⟨a, rfl⟩ := hmeant.readable key hke
      refine ⟨a, rfl, ?_, ?_⟩
      · cases hof : hostOf global a.text with
        | none => exact .inl ((hostless_iff had hke).mpr hof)
        | some host =>
          exact .inr ⟨host, ((hostOf_eq_some_iff had hke).mp hof).1,
            (mem_names_iff had).mpr ⟨a.text, hke, hof⟩⟩
      · intro p hp
        obtain ⟨listen, hlsn, hpt⟩ := Address.listenOf_text (had.supported _ hke) hp
        refine ⟨listen, ?_, hpt⟩
        rw [had.listens]
        exact mem_filterMap.mpr ⟨a.text, hke, hlsn⟩
    · obtain ⟨a, ha, hpt, hs, hmem⟩ := hpassedOver arg harg hpas
      refine ⟨a, ha, .inr ⟨_, hs, hmem⟩, ?_⟩
      intro p hp
      simp [Address.portNumber, hpt] at hp
  · intro hanon
    have hem : server.names = [] := by
      rw [← List.head?_eq_none_iff]
      cases hhd : server.names.head? with
      | none => rfl
      | some host =>
        obtain ⟨before, key, after, hsp, hof, hbe⟩ := (head_names_iff had host).mp hhd
        have hke : key ∈ split.names := by simp [hsp]
        obtain ⟨b, rfl⟩ := hmeant.readable key hke
        obtain ⟨hb, hwl⟩ := (hostOf_eq_some_iff had hke).mp hof
        rw [hns] at hhd
        have hh : host = anonymous := ((siteName_of_head hb hwl hhd).symm.trans hn.symm).trans hanon
        refine absurd (hh ▸ hb) (hmeant.first before b.text after hsp ?_ b rfl)
        rintro k hk c rfl
        exact (hostless_iff had (by simp [hsp, hk])).mpr (hbe _ hk)
    rintro key hke a rfl
    rcases mem_names_or_passedOver hke with hke | ⟨arg, harg, hpas, -⟩
    · refine (hostless_iff had hke).mpr ?_
      cases hof : hostOf global a.text with
      | none => rfl
      | some host =>
        have hmem := (mem_names_iff had).mpr ⟨a.text, hke, hof⟩
        simp [hem] at hmem
    · obtain ⟨-, -, -, -, hmem⟩ := hpassedOver arg harg hpas
      simp [hem] at hmem

/-- The sites of a block are those of its groups. -/
theorem mem_adaptSites {sites : List (SiteKeys × ServerBlock)}
    (h : adaptSites d global = .ok sites) :
    (∀ split ∈ splitSiteAddressGroups d global, ∃ server, (split, server) ∈ sites) ∧
      ∀ site ∈ sites, site.1 ∈ splitSiteAddressGroups d global ∧
        adaptServer site.1 global = .ok site.2 := by
  refine ⟨fun split hsp => ?_, fun site hmem => ?_⟩
  · obtain ⟨site, hmem, hsite⟩ := Fallible.exists_of_mem_items h hsp
    obtain ⟨server, -, heq⟩ := Fallible.bind_eq_ok.mp hsite
    cases heq
    exact ⟨server, hmem⟩
  · obtain ⟨split, hsp, hsite⟩ := Fallible.exists_of_mem_mapM h hmem
    obtain ⟨server, hsrv, heq⟩ := Fallible.bind_eq_ok.mp hsite
    cases heq
    exact ⟨hsp, hsrv⟩

/-- A block that is accepted keeps the meaning of its addresses exactly when each of its sites is
meant as it is read. -/
theorem kept_iff {sites : List (SiteKeys × ServerBlock)} (h : adaptSites d global = .ok sites) :
    Kept d sites ↔ ∀ split ∈ splitSiteAddressGroups d global, Meant split := by
  obtain ⟨hsite, hsp⟩ := mem_adaptSites h
  constructor
  · rintro ⟨hrd, hnm⟩ split hmem
    obtain ⟨server, hsrv⟩ := hsite split hmem
    refine meant_of_kept (hsp _ hsrv).2 ?_ (hnm _ hsrv)
    intro key hk
    obtain ⟨a, ha, site, hmem', hk', hh, -⟩ :=
      hrd key ((mem_addresses_iff global d key).mpr ⟨split, hmem, hk⟩)
    have hsm : split = site.1 := eq_of_mem_addresses hmem (hsp _ hmem').1 hk hk'
    have hsrv' : server = site.2 := by
      have hboth := (hsp _ hsrv).2
      rw [hsm, (hsp _ hmem').2] at hboth
      exact (Except.ok.inj hboth).symm
    rw [hsrv']
    exact ⟨a, ha, hh⟩
  · intro hmeant
    refine ⟨?_, ?_⟩
    · intro key hk
      obtain ⟨split, hmem, hk⟩ := (mem_addresses_iff global d key).mp hk
      obtain ⟨server, hsrv⟩ := hsite split hmem
      obtain ⟨a, ha, hh, hpt⟩ := (kept_of_meant (hsp _ hsrv).2 (hmeant split hmem)).1 key hk
      exact ⟨a, ha, (split, server), hsrv, hk, hh, hpt⟩
    · intro site hmem
      exact (kept_of_meant (hsp _ hmem).2 (hmeant _ (hsp _ hmem).1)).2

end Sites

namespace Shop

def global : GlobalBlock := ⟨none, none⟩

def keys : SiteKeys := ⟨ascii "example.com:8080", []⟩

theorem plainHost_example : PlainHost (ascii "example.com") := by
  unfold PlainHost
  decide +kernel

def address : Address where
  scheme := none
  host := some (ascii "example.com")
  port := some (ascii "8080")
  host_ok := by
    intro h hh
    cases hh
    exact .inl plainHost_example
  port_ok := by
    intro p hp
    cases hp
    decide
  not_empty := by decide

def sites : List (SiteKeys × ServerBlock) :=
  [(keys, ⟨ascii "example.com", [ascii "example.com"], [⟨.http, anyHost, some 8080, false⟩]⟩)]

theorem meant_keys : Meant keys where
  readable key hk := by
    rw [show keys.names = [address.text] by decide, mem_singleton] at hk
    exact ⟨address, hk.symm⟩
  passedOver arg harg := absurd harg (by simp [keys])
  first before key after hsp _ a ha hh := by
    have hns : keys.names = [ascii "example.com:8080"] := by decide
    have hmem : key ∈ keys.names := by simp [hsp]
    rw [hns, mem_singleton] at hmem
    have hhd : a.rest.head? = some 0x5F := by
      simp only [Address.rest, hh, Option.getD_some]
      rfl
    have hrest : a.rest = (splitScheme (ascii "example.com:8080")).2 := by
      rw [← hmem, ← ha, a.splitScheme_text]
    rw [hrest] at hhd
    exact absurd hhd (by decide)

theorem kept_keys : Kept keys sites := by
  have hsites : adaptSites keys global = .ok sites := by decide
  refine (kept_iff hsites).mpr ?_
  intro s hsp
  rw [mem_singleton.mp hsp]
  exact meant_keys

def mistyped : SiteKeys := ⟨ascii "http://example.com:80a", []⟩

/-- The block is accepted, its site has no host and answers for every one. -/
theorem not_kept_port :
    ∃ server, adaptSites mistyped global = .ok [(mistyped, server)] ∧
      server.name = anonymous ∧ ¬ Kept mistyped [(mistyped, server)] := by
  refine ⟨⟨anonymous, [], []⟩, by decide, rfl, ?_⟩
  rintro ⟨hread, -⟩
  obtain ⟨a, ha, -⟩ := hread (ascii "http://example.com:80a") (by decide)
  have hspt : Supported global a.text := by
    rw [ha]
    exact .inr (.inr (.inr (by decide)))
  rcases Address.parse_of_supported hspt with ⟨-, -, hmark⟩ | ⟨-, -, hps⟩
  · rw [ha] at hmark
    exact absurd hmark (by decide)
  · rw [ha] at hps
    have hnone : (parseServerAddress (ascii "http://example.com:80a") global).isSome = false := by
      decide
    simp [hps] at hnone

end Shop

end Caddyfile

end Pingclair
