import Pingclair.Lib.AsciiCase
import Pingclair.Lib.Json

/-!
# Masked documents

What the admin API hands out is a copy of the configuration with its secrets masked. The document
is untyped, so that secrets are found by the names that they are stored under.

A walk over a document is given by the positions that it reaches: `masked` says of a position
whether the walk masks a string there.
-/

namespace Pingclair.Redaction

open ByteText AsciiCase Json List Option

variable {N : Type}

def placeholder : Bytes := ascii "[redacted]"

theorem placeholder_ne_nil : placeholder ≠ [] := by decide

def arguments : Bytes := ascii "arguments"

def dnsProviderKeys : List Bytes := [ascii "dns", ascii "acme_dns", ascii "provider"]

def isProviderKey (key : Bytes) : Bool := dnsProviderKeys.contains key

def credentialNames : List Bytes :=
  [ascii "authorization", ascii "proxy-authorization", ascii "cookie", ascii "set-cookie"]

def credentialFragments : List Bytes :=
  [ascii "api-key", ascii "api_key", ascii "apikey", ascii "token", ascii "secret",
    ascii "password"]

def isCredentialName (name : Bytes) : Bool :=
  let name := fold (name.dropWhile (ascii "+-?>").contains)
  credentialNames.contains name ||
    credentialFragments.any fun fragment => decide (fragment <:+: name)

def unlessEmpty (visit : Bytes → Bytes) (text : Bytes) : Bytes :=
  if text = [] then text else visit text

def onString (visit : Bytes → Bytes) : Json N → Json N
  | .string text => .string (visit text)
  | value => value

def eachString (visit : Bytes → Bytes) : Json N → Json N
  | .array items => .array (items.map (onString (unlessEmpty visit)))
  | value => onString (unlessEmpty visit) value

def eachArgument (visit : Bytes → Bytes) : Json N → Json N
  | .object entries => .object (entries.map fun entry =>
      if entry.1 = arguments then (entry.1, eachString visit entry.2) else entry)
  | value => value

mutual

def eachSecret (visit : Bytes → Bytes) : Json N → Json N
  | .object entries => .object (eachSecretEntries visit entries)
  | .array items => .array (eachSecretItems visit items)
  | value => value

def eachSecretItems (visit : Bytes → Bytes) : List (Json N) → List (Json N)
  | [] => []
  | item :: items => eachSecret visit item :: eachSecretItems visit items

/-- Nothing below a credential is walked. A provider's own arguments are visited beside what the
walk finds in it; the strings are different ones, so that the order does not matter. -/
def eachSecretEntries (visit : Bytes → Bytes) : List (Bytes × Json N) → List (Bytes × Json N)
  | [] => []
  | (key, value) :: entries =>
    (key,
      if isCredentialName key then eachString visit value
      else if isProviderKey key then eachArgument visit (eachSecret visit value)
      else eachSecret visit value) :: eachSecretEntries visit entries

end

def redacted (document : Json N) : Json N := eachSecret (fun _ => placeholder) document

def direct : List Step → Bool
  | [] => true
  | [.index _] => true
  | _ => false

def directArgument : List Step → Bool
  | .key name :: path => name = arguments && direct path
  | _ => false

def masked : List Step → Bool
  | [] => false
  | .index _ :: path => masked path
  | .key name :: path =>
    if isCredentialName name then direct path
    else isProviderKey name && directArgument path || masked path

def onlyAt (reached : List Step → Bool) (f : List Step → Bytes → Bytes) (path : List Step)
    (text : Bytes) : Bytes :=
  if reached path then f path text else text

variable {path : List Step}

theorem onlyAt_of_not_reached {reached : List Step → Bool} (h : reached path = false)
    (f : List Step → Bytes → Bytes) (text : Bytes) :
    onlyAt reached f path text = text := if_neg (by simp [h])

variable (f : List Step → Bytes → Bytes)

theorem mapStrings_nil (value : Json N) :
    value.mapStrings (onlyAt List.isEmpty f) = onString (f []) value := by
  have hin (hv : ∀ text, value ≠ .string text) :
      value.mapStrings (onlyAt List.isEmpty f) = value := by
    refine mapStrings_eq_self fun p text hat => ?_
    cases p with
    | nil => exact absurd hat (hv text)
    | cons step p => exact onlyAt_of_not_reached rfl f text
  cases value with
  | array i => exact hin (by simp)
  | object entries => exact hin (by simp)
  | _ => rfl

theorem mapItems_eq_mapIdx (its : List (Json N)) :
    mapItems f 0 its =
      its.mapIdx fun i item => mapStrings (fun path => f (.index i :: path)) item := by
  refine ext_getElem? fun i => ?_
  rw [getElem?_mapItems, List.getElem?_mapIdx, Nat.zero_add]

/-- A rewrite of a string, or of the ones of an array. -/
theorem mapStrings_direct (value : Json N) :
    value.mapStrings (onlyAt direct f) = match value with
      | .array its => .array (its.mapIdx fun i item => onString (f [.index i]) item)
      | value => onString (f []) value := by
  cases value with
  | array its =>
    rw [mapStrings, mapItems_eq_mapIdx]
    congr 2
    funext i item
    rw [← mapStrings_nil fun p => f (.index i :: p)]
    refine mapStrings_congr item fun p text _ => ?_
    cases p <;> rfl
  | object entries =>
    refine mapStrings_eq_self fun p text hat => ?_
    obtain ⟨name, _, rest, rfl, -⟩ := hat.of_object
    exact onlyAt_of_not_reached rfl f text
  | _ => rfl

/-- A rewrite of the arguments of a provider. -/
theorem mapStrings_directArgument (value : Json N) :
    value.mapStrings (onlyAt directArgument f) = match value with
      | .object entries => .object (entries.map fun entry =>
          if entry.1 = arguments then
            (entry.1, entry.2.mapStrings (onlyAt direct fun path => f (.key arguments :: path)))
          else entry)
      | value => value := by
  cases value with
  | object entries =>
    rw [mapStrings, mapEntries_eq_map]
    congr 1
    refine map_congr_left fun entry _ => ?_
    split
    · next hn =>
      congr 1
      refine mapStrings_congr entry.2 fun path text _ => ?_
      simp [onlyAt, directArgument, hn]
    · next hn =>
      refine Prod.ext rfl (mapStrings_eq_self fun path text _ => ?_)
      exact onlyAt_of_not_reached (by simp [directArgument, hn]) _ text
  | array it =>
    refine mapStrings_eq_self fun path text hat => ?_
    obtain ⟨i, _, rest, rfl, -⟩ := hat.of_array
    exact onlyAt_of_not_reached rfl f text
  | _ => rfl

theorem masked_of_directArgument (h : directArgument path = true) : masked path = false := by
  match path with
  | .key name :: path =>
    rw [directArgument, Bool.and_eq_true, decide_eq_true_eq] at h
    obtain ⟨rfl, hp⟩ := h
    have hn : isCredentialName arguments = false := by decide
    have hdns : isProviderKey arguments = false := by decide
    have hin : masked path = false := by
      match path, hp with
      | [], _ => rfl
      | [.index _], _ => rfl
    simp [masked, hn, hdns, hin]

/-- A rewrite at the positions of the walk below a key. -/
theorem mapStrings_masked (key : Bytes) (value : Json N) :
    value.mapStrings (fun path => onlyAt masked f (.key key :: path)) =
      if isCredentialName key then
        value.mapStrings (onlyAt direct fun path => f (.key key :: path))
      else if isProviderKey key then
        (value.mapStrings (onlyAt masked fun path => f (.key key :: path))).mapStrings
          (onlyAt directArgument fun path => f (.key key :: path))
      else value.mapStrings (onlyAt masked fun path => f (.key key :: path)) := by
  split
  · next hk =>
    refine mapStrings_congr value fun path text _ => ?_
    simp [onlyAt, masked, hk]
  · next hk =>
    split
    · next hdns =>
      rw [mapStrings_comp]
      refine mapStrings_congr value fun path text _ => ?_
      have hrc : masked (.key key :: path) = (directArgument path || masked path) := by
        simp [masked, hk, hdns]
      cases hdir : directArgument path with
      | true => simp [onlyAt, hrc, hdir, masked_of_directArgument hdir]
      | false => simp [onlyAt, hrc, hdir]
    · next hdns =>
      refine mapStrings_congr value fun path text _ => ?_
      simp [onlyAt, masked, hk, hdns]

theorem eachString_eq (visit : Bytes → Bytes) (value : Json N) :
    eachString visit value = value.mapStrings (onlyAt direct fun _ => unlessEmpty visit) := by
  rw [mapStrings_direct]
  cases value with
  | array i =>
    rw [eachString]
    congr 1
    exact ext_getElem? (by simp)
  | _ => rfl

theorem eachArgument_eq (visit : Bytes → Bytes) (value : Json N) :
    eachArgument visit value =
      value.mapStrings (onlyAt directArgument fun _ => unlessEmpty visit) := by
  rw [mapStrings_directArgument]
  cases value with
  | object entries =>
    rw [eachArgument]
    simp [eachString_eq]
  | _ => rfl

mutual

theorem eachSecret_eq (visit : Bytes → Bytes) : (value : Json N) →
    eachSecret visit value = value.mapStrings (onlyAt masked fun _ => unlessEmpty visit)
  | .null => rfl
  | .bool _ => rfl
  | .number _ => rfl
  | .string _ => rfl
  | .array i => by rw [eachSecret, mapStrings, eachSecretItems_eq visit 0 i]
  | .object entries => by rw [eachSecret, mapStrings, eachSecretEntries_eq visit entries]

theorem eachSecretItems_eq (visit : Bytes → Bytes) (i : Nat) : (its : List (Json N)) →
    eachSecretItems visit its = mapItems (onlyAt masked fun _ => unlessEmpty visit) i its
  | [] => rfl
  | item :: its => by
    rw [eachSecretItems, mapItems, eachSecret_eq visit item, eachSecretItems_eq visit (i + 1) its]
    rfl

theorem eachSecretEntries_eq (visit : Bytes → Bytes) : (entries : List (Bytes × Json N)) →
    eachSecretEntries visit entries = mapEntries (onlyAt masked fun _ => unlessEmpty visit) entries
  | [] => rfl
  | (key, value) :: entries => by
    rw [eachSecretEntries, mapEntries, eachSecretEntries_eq visit entries, mapStrings_masked,
      eachString_eq, eachSecret_eq visit value, eachArgument_eq]

end

theorem redacted_eq_mapStrings (doc : Json N) :
    redacted doc = doc.mapStrings (onlyAt masked fun _ => unlessEmpty fun _ => placeholder) :=
  eachSecret_eq _ doc

/-- A position under the name of a credential, directly or in an array. -/
def UnderCredential (path : List Step) : Prop :=
  ∃ name back, .key name :: back <:+ path ∧ isCredentialName name = true ∧ direct back = true

def InArguments (path : List Step) : Prop :=
  ∃ name back, .key name :: .key arguments :: back <:+ path ∧ isProviderKey name = true

def SecretPosition (path : List Step) : Prop := UnderCredential path ∨ InArguments path

/-- No credential's name encloses the position, other than the one that it is directly under. -/
def NotEnclosed (path : List Step) : Prop :=
  ∀ name back, .key name :: back <:+ path → isCredentialName name = true → direct back = true

def DirectlyInArguments (path : List Step) : Prop :=
  ∃ name back, .key name :: .key arguments :: back <:+ path ∧ isProviderKey name = true ∧
    direct back = true

theorem notEnclosed_key (name : Bytes) (path : List Step) :
    NotEnclosed (.key name :: path) ↔
      (isCredentialName name = true → direct path = true) ∧ NotEnclosed path := by
  simp only [NotEnclosed, suffix_cons_iff]
  grind

theorem not_keys_of_direct (h : direct path = true) (name : Bytes) (back : List Step) :
    ¬.key name :: back <:+ path := by
  match path, h with
  | [], _ => simp
  | [.index _], _ => simp [suffix_cons_iff]

theorem notEnclosed_of_direct (h : direct path = true) : NotEnclosed path :=
  fun name b hsuf => absurd hsuf (not_keys_of_direct h name b)

theorem directArgument_iff (path : List Step) :
    directArgument path = true ↔ ∃ back, path = .key arguments :: back ∧ direct back = true := by
  cases path with
  | nil => simp [directArgument]
  | cons step path => cases step <;> simp [directArgument]

theorem masked_iff (path : List Step) :
    masked path = true ↔ NotEnclosed path ∧ (UnderCredential path ∨ DirectlyInArguments path) := by
  induction path with
  | nil => simp [masked, UnderCredential, DirectlyInArguments]
  | cons step path ih =>
    cases step with
    | index i =>
      simp only [masked, ih]
      simp [NotEnclosed, UnderCredential, DirectlyInArguments, suffix_cons_iff]
    | key key =>
      rw [notEnclosed_key]
      by_cases hk : isCredentialName key = true
      · rw [masked, if_pos hk]
        constructor
        · intro hdir
          exact ⟨⟨fun _ => hdir, notEnclosed_of_direct hdir⟩,
            .inl ⟨key, path, suffix_rfl, hk, hdir⟩⟩
        · exact fun h => h.1.1 hk
      · have hund : UnderCredential (.key key :: path) ↔ UnderCredential path := by
          simp only [UnderCredential, suffix_cons_iff]
          grind
        have harguments : DirectlyInArguments (.key key :: path) ↔
            (isProviderKey key = true ∧ directArgument path = true) ∨ DirectlyInArguments path := by
          simp only [DirectlyInArguments, suffix_cons_iff, directArgument_iff]
          grind
        have hop (h : directArgument path = true) : NotEnclosed path := by
          obtain ⟨b, rfl, hbk⟩ := (directArgument_iff path).mp h
          exact (notEnclosed_key _ _).mpr ⟨fun _ => hbk, notEnclosed_of_direct hbk⟩
        rw [masked, if_neg hk, Bool.or_eq_true, ih, harguments]
        grind

theorem secretPosition_of_masked (h : masked path = true) : SecretPosition path := by
  obtain ⟨-, hund | ⟨name, b, hsuf, hn, -⟩⟩ := (masked_iff path).mp h
  · exact .inl hund
  · exact .inr ⟨name, b, hsuf, hn⟩

/-- The masked copy shows no secret, and two documents that differ in secrets only have the same
one. -/
structure Complete (document : Json N) : Prop where
  masks : ∀ path text, SecretPosition path → At path (redacted document) (.string text) →
    text = [] ∨ text = placeholder
  noninterference : ∀ change : List Step → Bytes → Bytes, (∀ path text, change path text ≠ text →
      SecretPosition path ∧ text ≠ [] ∧ change path text ≠ []) →
    redacted (document.mapStrings change) = redacted document

/-- No secret lies deeper below the name of a credential than in an array there, and none lies
deeper in the arguments of a provider, unless it has a credential's name of its own. -/
def NoneHidden (document : Json N) : Prop :=
  ∀ path text, SecretPosition path → At path document (.string text) → text ≠ [] →
    NotEnclosed path ∧ (UnderCredential path ∨ DirectlyInArguments path)

/-- A document is masked completely exactly when none of its secrets is hidden from the walk. -/
theorem complete_iff (document : Json N) : Complete document ↔ NoneHidden document := by
  constructor
  · intro h p text hsct hat hne
    rw [← masked_iff]
    by_contra hmsk
    rw [Bool.not_eq_true] at hmsk
    -- another text in this position shows in the masked copy
    let c (p' : List Step) (text' : Bytes) : Bytes :=
      if p' = p ∧ text' = text then text ++ text else text'
    have hchange := h.noninterference c fun p' text' hdif => by
      by_cases heq : p' = p ∧ text' = text
      · obtain ⟨rfl, rfl⟩ := heq
        exact ⟨hsct, hne, by simp [c, hne]⟩
      · exact absurd (if_neg heq) hdif
    rw [redacted_eq_mapStrings, redacted_eq_mapStrings, mapStrings_comp] at hchange
    have hsm := eq_of_mapStrings_eq hchange hat
    rw [onlyAt_of_not_reached hmsk, onlyAt_of_not_reached hmsk] at hsm
    simp only [c, and_self, if_true] at hsm
    exact hne (by simpa using hsm)
  · intro h
    constructor
    · intro p text hsct hat
      rw [redacted_eq_mapStrings] at hat
      obtain ⟨before, hb, rfl⟩ := hat.of_mapStrings
      by_cases hne : before = []
      · exact .inl (by simp [onlyAt, unlessEmpty, hne])
      · have hmsk := (masked_iff p).mpr (h p before hsct hb hne)
        exact .inr (by simp [onlyAt, unlessEmpty, hmsk, hne])
    · intro c hchange
      rw [redacted_eq_mapStrings, redacted_eq_mapStrings, mapStrings_comp]
      refine mapStrings_congr document fun p text hat => ?_
      by_cases hdif : c p text = text
      · rw [hdif]
      · obtain ⟨hsct, hne, hne'⟩ := hchange p text hdif
        have hmsk := (masked_iff p).mpr (h p text hsct hat hne)
        simp [onlyAt, unlessEmpty, hmsk, hne, hne']

def nestedSecret : Json Nat :=
  .object [(ascii "tokens", .object [(ascii "password", .string (ascii "hunter2"))])]

theorem not_complete_nested : ¬Complete nestedSecret := by
  intro h
  have hmasks := h.masks [.key (ascii "tokens"), .key (ascii "password")] (ascii "hunter2")
    (.inl ⟨ascii "password", [], suffix_cons _ _, by decide, rfl⟩)
  have hat : At [.key (ascii "tokens"), .key (ascii "password")] (redacted nestedSecret)
      (.string (ascii "hunter2")) := by
    have hshown : redacted nestedSecret = nestedSecret := by
      have hn : isCredentialName (ascii "tokens") = true := by decide
      rfl
    exact ⟨_, _, rfl, mem_singleton_self _, _, _, rfl, mem_singleton_self _, rfl⟩
  exact absurd (hmasks hat) (by decide)

end Pingclair.Redaction
