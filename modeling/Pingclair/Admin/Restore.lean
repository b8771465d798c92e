import Pingclair.Admin.Redaction

/-!
# Secrets put back

A masked document comes back edited. `restorePlaceholders` answers each placeholder with the secret
that the running document has at the same position, and a document that still carries one is
refused.
-/

namespace Pingclair.Redaction

open ByteText Json

variable {N : Type}

def realSecret : Option (Json N) → Option Bytes
  | some (.string text) => if text ≠ [] ∧ text ≠ placeholder then some text else none
  | _ => none

theorem realSecret_eq_some {running : Option (Json N)} {secret : Bytes}
    (h : realSecret running = some secret) :
    running = some (.string secret) ∧ secret ≠ [] ∧ secret ≠ placeholder := by
  match running with
  | some (.string text) =>
    rw [realSecret, Option.ite_none_right_eq_some] at h
    obtain ⟨hreal, heq⟩ := h
    cases heq
    exact ⟨rfl, hreal⟩
  | none | some .null | some (.bool _) | some (.number _) | some (.array _) | some (.object _) =>
    simp [realSecret] at h

def restoreText (running : Option (Json N)) (text : Bytes) : Bytes :=
  if text = placeholder then (realSecret running).getD text else text

def restoreStrings (running : Option (Json N)) : Json N → Json N
  | .array items => .array (items.mapIdx fun i item =>
      onString (restoreText (running.bind (item? i))) item)
  | value => onString (restoreText running) value

def restoreArgument (running : Option (Json N)) : Json N → Json N
  | .object entries => .object (entries.map fun entry =>
      if entry.1 = arguments then
        (entry.1, restoreStrings (running.bind (get? arguments)) entry.2)
      else entry)
  | value => value

mutual

/-- Walks two documents together. The order of the two visits of a provider is the one of
`eachSecretEntries`. -/
def restoreEachSecret (running : Json N) : Json N → Json N
  | .object entries => .object (restoreEntries running entries)
  | .array items => .array (restoreItems running 0 items)
  | value => value

def restoreItems (running : Json N) (i : Nat) : List (Json N) → List (Json N)
  | [] => []
  | item :: items =>
    restoreEachSecret ((running.item? i).getD .null) item :: restoreItems running (i + 1) items

def restoreEntries (running : Json N) : List (Bytes × Json N) → List (Bytes × Json N)
  | [] => []
  | (key, value) :: entries =>
    (key,
      if isCredentialName key then restoreStrings (running.get? key) value
      else if isProviderKey key then
        restoreArgument (running.get? key) (restoreEachSecret ((running.get? key).getD .null) value)
      else restoreEachSecret ((running.get? key).getD .null) value) ::
      restoreEntries running entries

end

def restorePlaceholders (incoming running : Json N) : Json N := restoreEachSecret running incoming

variable (running : Option (Json N))

theorem restoreText_getD (path : List Step) :
    restoreText ((running.getD .null).at? path) = restoreText (running.bind (at? path)) := by
  cases running with
  | some running => rfl
  | none =>
    match path with
    | [] => rfl
    | .key _ :: _ => rfl
    | .index _ :: _ => rfl

theorem restoreStrings_eq (value : Json N) :
    restoreStrings running value =
      value.mapStrings (onlyAt direct fun path => restoreText (running.bind (at? path))) := by
  rw [mapStrings_direct]
  cases value with
  | array it =>
    rw [restoreStrings]
    congr 2
    funext i item
    congr 2
    cases running with
    | none => rfl
    | some running => simp [at?]
  | _ => cases running <;> rfl

theorem restoreArgument_eq (value : Json N) :
    restoreArgument running value =
      value.mapStrings (onlyAt directArgument fun path =>
        restoreText (running.bind (at? path))) := by
  rw [mapStrings_directArgument]
  cases value with
  | object entries =>
    rw [restoreArgument]
    simp [restoreStrings_eq, at?, Option.bind_assoc]
  | _ => rfl

mutual

theorem restoreEachSecret_eq : (running value : Json N) →
    restoreEachSecret running value =
      value.mapStrings (onlyAt masked fun path => restoreText (running.at? path))
  | _, .null => rfl
  | _, .bool _ => rfl
  | _, .number _ => rfl
  | _, .string _ => rfl
  | running, .array i => by
    rw [restoreEachSecret, mapStrings, restoreItems_eq running 0 i]
  | running, .object entries => by
    rw [restoreEachSecret, mapStrings, restoreEntries_eq running entries]

theorem restoreItems_eq : (running : Json N) → (i : Nat) → (its : List (Json N)) →
    restoreItems running i its =
      mapItems (onlyAt masked fun path => restoreText (running.at? path)) i its
  | _, _, [] => rfl
  | running, i, it :: its => by
    rw [restoreItems, mapItems, restoreEachSecret_eq _ it, restoreItems_eq running (i + 1) its]
    simp only [restoreText_getD]
    rfl

theorem restoreEntries_eq : (running : Json N) → (entries : List (Bytes × Json N)) →
    restoreEntries running entries =
      mapEntries (onlyAt masked fun path => restoreText (running.at? path)) entries
  | _, [] => rfl
  | running, (key, value) :: entries => by
    rw [restoreEntries, mapEntries, restoreEntries_eq running entries, mapStrings_masked,
      restoreStrings_eq, restoreEachSecret_eq _ value, restoreArgument_eq]
    simp [restoreText_getD, at?]

end

theorem restorePlaceholders_eq_mapStrings (incoming running : Json N) :
    restorePlaceholders incoming running =
      incoming.mapStrings (onlyAt masked fun path => restoreText (running.at? path)) :=
  restoreEachSecret_eq running incoming

/-- A masked document that comes back as it is restores the running one. -/
theorem restorePlaceholders_redacted {document : Json N} (hdis : document.Distinct)
    (h : ∀ path, masked path = true → ¬At path document (.string placeholder)) :
    restorePlaceholders (redacted document) document = document := by
  rw [restorePlaceholders_eq_mapStrings, redacted_eq_mapStrings, mapStrings_comp]
  refine mapStrings_eq_self fun path text hat => ?_
  cases hmsk : masked path with
  | false => rw [onlyAt_of_not_reached hmsk, onlyAt_of_not_reached hmsk]
  | true =>
    by_cases hne : text = []
    · subst hne
      simp [onlyAt, hmsk, unlessEmpty, restoreText, placeholder_ne_nil.symm]
    · have hreal : text ≠ placeholder := by
        rintro rfl
        exact h path hmsk hat
      simp [onlyAt, hmsk, unlessEmpty, hne, restoreText, at?_of_at hdis hat, realSecret, hreal]

/-- After a document is loaded it is shown as it was sent, with its secrets masked. -/
theorem redacted_restorePlaceholders (incoming running : Json N) :
    redacted (restorePlaceholders incoming running) = redacted incoming := by
  rw [restorePlaceholders_eq_mapStrings, redacted_eq_mapStrings, redacted_eq_mapStrings,
    mapStrings_comp]
  refine mapStrings_congr incoming fun path text _ => ?_
  cases hreal : realSecret (running.at? path) with
  | none => simp [onlyAt, restoreText, hreal]
  | some secret =>
    have hne := (realSecret_eq_some hreal).2.1
    grind [onlyAt, unlessEmpty, restoreText, placeholder_ne_nil]

/-! ### Placeholders that are left -/

def anyText (look : Bytes → Bool) : Json N → Bool
  | .string text => text ≠ [] && look text
  | _ => false

def anyString (look : Bytes → Bool) : Json N → Bool
  | .array items => items.any (anyText look)
  | value => anyText look value

def anyArgument (look : Bytes → Bool) : Json N → Bool
  | .object entries => entries.any fun entry => entry.1 = arguments && anyString look entry.2
  | _ => false

mutual

def anySecret (look : Bytes → Bool) : Json N → Bool
  | .object entries => anySecretEntries look entries
  | .array items => anySecretItems look items
  | _ => false

def anySecretItems (look : Bytes → Bool) : List (Json N) → Bool
  | [] => false
  | item :: items => anySecret look item || anySecretItems look items

def anySecretEntries (look : Bytes → Bool) : List (Bytes × Json N) → Bool
  | [] => false
  | (key, value) :: entries =>
    (if isCredentialName key then anyString look value
      else if isProviderKey key then anyArgument look value || anySecret look value
      else anySecret look value) || anySecretEntries look entries

end

def carriesPlaceholder (document : Json N) : Bool := anySecret (· = placeholder) document

/-- Some string at a position that is reached shows to the visitor. -/
def Seen (reached : List Step → Bool) (look : Bytes → Bool) (value : Json N) : Prop :=
  ∃ path text, reached path = true ∧ At path value (.string text) ∧ text ≠ [] ∧ look text = true

variable (reached : List Step → Bool)

variable (look : Bytes → Bool)

theorem seen_object (entries : List (Bytes × Json N)) :
    Seen reached look (.object entries) ↔
      ∃ key value, (key, value) ∈ entries ∧
        Seen (fun path => reached (.key key :: path)) look value := by
  constructor
  · rintro ⟨path, text, hrc, hat, hlook⟩
    obtain ⟨key, value, rest, rfl, hmem, hv⟩ := hat.of_object
    exact ⟨key, value, hmem, rest, text, hrc, hv, hlook⟩
  · rintro ⟨key, value, hmem, path, text, hrc, hat, hlook⟩
    exact ⟨.key key :: path, text, hrc, ⟨entries, value, rfl, hmem, hat⟩, hlook⟩

theorem seen_array (its : List (Json N)) :
    Seen reached look (.array its) ↔
      ∃ i item, its[i]? = some item ∧ Seen (fun path => reached (.index i :: path)) look item := by
  constructor
  · rintro ⟨path, text, hrc, hat, hlook⟩
    obtain ⟨i, item, rest, rfl, hget, hit⟩ := hat.of_array
    exact ⟨i, item, hget, rest, text, hrc, hit, hlook⟩
  · rintro ⟨i, item, hget, path, text, hrc, hat, hlook⟩
    exact ⟨.index i :: path, text, hrc, ⟨its, item, rfl, hget, hat⟩, hlook⟩

theorem seen_string (text : Bytes) :
    Seen reached look (.string text : Json N) ↔
      reached [] = true ∧ text ≠ [] ∧ look text = true := by
  constructor
  · rintro ⟨p, text, hrc, hat, hlook⟩
    match p, hat with
    | [], hat =>
      cases hat
      exact ⟨hrc, hlook⟩
  · rintro ⟨hrc, hlook⟩
    exact ⟨[], text, hrc, rfl, hlook⟩

theorem seen_or (reached reached' : List Step → Bool) (look : Bytes → Bool) (value : Json N) :
    Seen (fun path => reached path || reached' path) look value ↔
      Seen reached look value ∨ Seen reached' look value := by
  simp only [Seen, Bool.or_eq_true]
  grind

theorem not_seen_of_not_reached {reached : List Step → Bool} {look : Bytes → Bool}
    {value : Json N} (h : ∀ path text, At path value (.string text) → reached path = false) :
    ¬Seen reached look value := by
  rintro ⟨path, text, hrc, hat, -⟩
  rw [h path text hat] at hrc
  simp at hrc

theorem not_at_atom {value : Json N} (hstring : ∀ text, value ≠ .string text)
    (harray : ∀ its, value ≠ .array its) (hobject : ∀ entries, value ≠ .object entries)
    (path : List Step) (text : Bytes) : ¬At path value (.string text) := by
  intro hat
  match path, hat with
  | [], hat => exact hstring text hat
  | .key _ :: _, ⟨entries, _, heq, _⟩ => exact hobject entries heq
  | .index _ :: _, ⟨its, _, heq, _⟩ => exact harray its heq

theorem anyText_iff (value : Json N) :
    anyText look value = true ↔ Seen List.isEmpty look value := by
  cases value with
  | string text => simp [anyText, seen_string]
  | array it =>
    refine iff_of_false (by simp [anyText]) (not_seen_of_not_reached fun p text hat => ?_)
    obtain ⟨i, _, rest, rfl, -⟩ := hat.of_array
    rfl
  | object entries =>
    refine iff_of_false (by simp [anyText]) (not_seen_of_not_reached fun p text hat => ?_)
    obtain ⟨key, _, rest, rfl, -⟩ := hat.of_object
    rfl
  | _ => exact iff_of_false (by simp [anyText]) (not_seen_of_not_reached fun p text hat =>
      absurd hat (not_at_atom (by simp) (by simp) (by simp) p text))

theorem anyString_iff (value : Json N) : anyString look value = true ↔ Seen direct look value := by
  cases value with
  | array it =>
    have hdir (i : Nat) : (fun p => direct (.index i :: p)) = List.isEmpty := by
      funext p
      cases p <;> rfl
    rw [anyString, List.any_eq_true, seen_array]
    simp only [anyText_iff, hdir, List.mem_iff_getElem?]
    grind
  | object entries =>
    refine iff_of_false (by simp [anyString, anyText])
      (not_seen_of_not_reached fun p text hat => ?_)
    obtain ⟨key, _, rest, rfl, -⟩ := hat.of_object
    rfl
  | string text =>
    rw [anyString, anyText_iff, seen_string, seen_string]
    rfl
    simp
  | _ => exact iff_of_false (by simp [anyString, anyText]) (not_seen_of_not_reached
      fun p text hat => absurd hat (not_at_atom (by simp) (by simp) (by simp) p text))

theorem anyArgument_iff (value : Json N) :
    anyArgument look value = true ↔ Seen directArgument look value := by
  cases value with
  | object entries =>
    rw [anyArgument, List.any_eq_true, seen_object]
    constructor
    · rintro ⟨⟨key, value⟩, hmem, hse⟩
      rw [Bool.and_eq_true, decide_eq_true_eq, anyString_iff] at hse
      obtain ⟨rfl, p, text, hdir, hlook⟩ := hse
      exact ⟨_, value, hmem, p, text, by simpa [directArgument] using hdir, hlook⟩
    · rintro ⟨key, value, hmem, p, text, hrc, hlook⟩
      simp only [directArgument, Bool.and_eq_true, decide_eq_true_eq] at hrc
      refine ⟨(key, value), hmem, ?_⟩
      rw [Bool.and_eq_true, decide_eq_true_eq, anyString_iff]
      exact ⟨hrc.1, p, text, hrc.2, hlook⟩
  | array it =>
    refine iff_of_false (by simp [anyArgument]) (not_seen_of_not_reached fun p text hat => ?_)
    obtain ⟨i, _, rest, rfl, -⟩ := hat.of_array
    rfl
  | string text => simp [anyArgument, seen_string, directArgument]
  | _ => exact iff_of_false (by simp [anyArgument]) (not_seen_of_not_reached fun p text hat =>
      absurd hat (not_at_atom (by simp) (by simp) (by simp) p text))

theorem seen_masked (key : Bytes) (value : Json N) :
    Seen (fun path => masked (.key key :: path)) look value ↔
      if isCredentialName key then Seen direct look value
      else if isProviderKey key then Seen directArgument look value ∨ Seen masked look value
      else Seen masked look value := by
  split
  · next hk => simp [masked, hk]
  · next hk =>
    split
    · next hdns => simp only [masked, hk, hdns, Bool.true_and, ← seen_or]; rfl
    · next hdns => simp [masked, hk, hdns]

mutual

theorem anySecret_iff (look : Bytes → Bool) : (value : Json N) →
    (anySecret look value = true ↔ Seen masked look value)
  | .null => iff_of_false (by simp [anySecret]) (not_seen_of_not_reached fun p text hat =>
      absurd hat (not_at_atom (by simp) (by simp) (by simp) p text))
  | .bool _ => iff_of_false (by simp [anySecret]) (not_seen_of_not_reached fun p text hat =>
      absurd hat (not_at_atom (by simp) (by simp) (by simp) p text))
  | .number _ => iff_of_false (by simp [anySecret]) (not_seen_of_not_reached fun p text hat =>
      absurd hat (not_at_atom (by simp) (by simp) (by simp) p text))
  | .string text => by simp [anySecret, seen_string, masked]
  | .array i => by
    rw [anySecret, anySecretItems_iff look i, seen_array]
    simp only [masked, List.mem_iff_getElem?]
    grind
  | .object entries => by rw [anySecret, anySecretEntries_iff look entries, seen_object]

theorem anySecretItems_iff (look : Bytes → Bool) : (its : List (Json N)) →
    (anySecretItems look its = true ↔ ∃ item ∈ its, Seen masked look item)
  | [] => by simp [anySecretItems]
  | item :: its => by
    rw [anySecretItems, Bool.or_eq_true, anySecret_iff look item, anySecretItems_iff look its,
      List.exists_mem_cons_iff]

theorem anySecretEntries_iff (look : Bytes → Bool) : (entries : List (Bytes × Json N)) →
    (anySecretEntries look entries = true ↔ ∃ key value, (key, value) ∈ entries ∧
      Seen (fun path => masked (.key key :: path)) look value)
  | [] => by simp [anySecretEntries]
  | (key, value) :: entries => by
    have hhd : (if isCredentialName key then anyString look value
        else if isProviderKey key then anyArgument look value || anySecret look value
        else anySecret look value) = true ↔
          Seen (fun path => masked (.key key :: path)) look value := by
      rw [seen_masked, ← anyString_iff, ← anyArgument_iff, ← anySecret_iff look value]
      split
      · rfl
      · split <;> simp
    rw [anySecretEntries, Bool.or_eq_true, hhd, anySecretEntries_iff look entries]
    grind

end

theorem carriesPlaceholder_of_at {doc : Json N} {path : List Step} (hmsk : masked path = true)
    (h : At path doc (.string placeholder)) : carriesPlaceholder doc = true :=
  (anySecret_iff _ doc).mpr ⟨path, placeholder, hmsk, h, placeholder_ne_nil, by simp⟩

/-- An answer of the admin API that is an error: its status and its text. -/
abbrev Refusal := Nat × Bytes

def placeholderRefusal : Refusal :=
  (400, ascii "Invalid config: a secret position holds the placeholder `" ++ placeholder ++
    ascii "`, and the running document has no secret there to keep; put the real value in " ++
    ascii "before loading this document")

/-- Loads a document, with `publish` for what follows: reading it as a configuration, validating
it and handing it to the runtime. -/
def commitDocument (publish : Json N → Except Refusal Unit) (next running : Json N) :
    Except Refusal Unit :=
  let restored := restorePlaceholders next running
  if carriesPlaceholder restored then .error placeholderRefusal else publish restored

/-- Each placeholder is answered with the secret that the running document has at the same
position, or the document is refused. Nothing else changes, and a masked document that comes back
as it is restores the running one. -/
theorem restores (incoming running : Json N) :
    (∀ path, masked path = true → At path incoming (.string placeholder) →
      (∃ secret, running.at? path = some (.string secret) ∧ secret ≠ [] ∧ secret ≠ placeholder ∧
        At path (restorePlaceholders incoming running) (.string secret)) ∨
      At path (restorePlaceholders incoming running) (.string placeholder) ∧
        ∀ publish, commitDocument publish incoming running = .error placeholderRefusal) ∧
    (∀ path text, At path incoming (.string text) → masked path = false ∨ text ≠ placeholder →
      At path (restorePlaceholders incoming running) (.string text)) ∧
    (running.Distinct → (∀ path, SecretPosition path → ¬At path running (.string placeholder)) →
      restorePlaceholders (redacted running) running = running) := by
  have hat {path : List Step} {text : Bytes} (h : At path incoming (.string text)) :=
    h.mapStrings (onlyAt masked fun path => restoreText (running.at? path))
  simp only [← restorePlaceholders_eq_mapStrings] at hat
  refine ⟨fun path hmsk h => ?_, fun path text h ho => ?_, fun hdis hnone => ?_⟩
  · have hres := hat h
    rw [onlyAt, if_pos hmsk, restoreText] at hres
    cases hreal : realSecret (running.at? path) with
    | none =>
      rw [hreal] at hres
      exact .inr ⟨hres, fun publish => if_pos (carriesPlaceholder_of_at hmsk hres)⟩
    | some secret =>
      rw [hreal] at hres
      obtain ⟨hrun, hne, hshown⟩ := realSecret_eq_some hreal
      exact .inl ⟨secret, hrun, hne, hshown, hres⟩
  · have hres := hat h
    rcases ho with hmsk | hne
    · rwa [onlyAt_of_not_reached hmsk] at hres
    · have hsm : onlyAt masked (fun path => restoreText (running.at? path)) path text = text := by
        simp [onlyAt, restoreText, hne]
      rwa [hsm] at hres
  · refine restorePlaceholders_redacted hdis fun path hmsk => hnone path ?_
    exact secretPosition_of_masked hmsk

/-- A document after its arrays were edited: elements are left out, repeated or put in another
order, at any depth, and objects keep their fields. -/
inductive Rearranged : Json N → Json N → Prop
  | same (value : Json N) : Rearranged value value
  | object {entries entries' : List (Bytes × Json N)}
      (keys : entries.map Prod.fst = entries'.map Prod.fst)
      (values : List.Forall₂ Rearranged (entries.map Prod.snd) (entries'.map Prod.snd)) :
      Rearranged (.object entries) (.object entries')
  | array {items picked items' : List (Json N)} (subset : picked ⊆ items)
      (elements : List.Forall₂ Rearranged picked items') :
      Rearranged (.array items) (.array items')

/-- When a masked document comes back rearranged, each object gets its own secrets back, or the
document is refused. -/
def KeepsOwners (running : Json N) : Prop :=
  ∀ edited, Rearranged running edited →
    restorePlaceholders (redacted edited) running = edited ∨
      ∀ publish, commitDocument publish (redacted edited) running = .error placeholderRefusal

def account (username password : String) : Json Nat :=
  .object [(ascii "username", .string (ascii username)),
    (ascii "password", .string (ascii password))]

def twoAccounts : Json Nat :=
  .object [(ascii "accounts", .array [account "anna" "alpha", account "bert" "beta"])]

/-- Without the first account, the second one is given its password. -/
theorem not_keepsOwners_twoAccounts : ¬KeepsOwners twoAccounts := by
  intro h
  have haccounts : isCredentialName (ascii "accounts") = false := by decide
  have husername : isCredentialName (ascii "username") = false := by decide
  have hpassword : isCredentialName (ascii "password") = true := by decide
  have hdns : isProviderKey (ascii "accounts") = false ∧
      isProviderKey (ascii "username") = false := by decide
  let edited : Json Nat := .object [(ascii "accounts", .array [account "bert" "beta"])]
  have hsecond (key : Bytes) (a b : Json Nat) :
      Rearranged (.object [(key, .array [a, b])]) (.object [(key, .array [b])]) :=
    .object rfl (.cons (.array (List.subset_cons_self _ _) (.cons (.same _) .nil)) .nil)
  have hedit : Rearranged twoAccounts edited := hsecond _ _ _
  have hmsk : redacted edited =
      .object [(ascii "accounts", .array [account "bert" "[redacted]"])] := by
    rfl
  have hres : restorePlaceholders (redacted edited) twoAccounts =
      .object [(ascii "accounts", .array [account "bert" "alpha"])] := by
    rfl
  rcases h edited hedit with heq | hrefused
  · rw [hres] at heq
    simp only [edited, account, Json.object.injEq, List.cons.injEq, Prod.mk.injEq,
      Json.array.injEq, Json.string.injEq] at heq
    exact absurd heq (by decide)
  · have hpublished := hrefused fun _ => .ok ()
    have hcarries : carriesPlaceholder
        (.object [(ascii "accounts", .array [account "bert" "alpha"])] : Json Nat) = false := by
      rfl
    cases hpublished

end Pingclair.Redaction
