import Mathlib.Data.List.Forall2

/-!
# Wildcard patterns

A pattern is a list of tokens. A star stands for any run of symbols, every other token
for one symbol that it fits. `Matches` says which texts a pattern matches; `scan` is the
matcher that keeps a single way back: on a mismatch the last star takes one more symbol,
and the stars before it are never tried again.
-/

namespace Wildcard

open List Option

variable {τ α : Type*}

section

variable (isStar : τ → Bool) (fits : τ → α → Bool)

/-- The texts a pattern stands for. -/
def Matches : List τ → List α → Prop
  | [], text => text = []
  | t :: pattern, text =>
    if isStar t then ∃ run rest, text = run ++ rest ∧ Matches pattern rest
    else ∃ a rest, text = a :: rest ∧ fits t a = true ∧ Matches pattern rest

/-- The state of the scan: what is left of the pattern and of the text, and for the last
star the pattern behind it and the text behind the run it stands for so far. Since that
star, tokens and symbols have been used up one for one. -/
structure Scan (α : Type*) where
  pattern : List τ
  text : List α
  retry : Option (List τ × List α)
  within : ∀ r ∈ retry, ∃ used run, r.1 = used ++ pattern ∧ r.2 = run ++ text ∧
    used.length = run.length ∧ ∀ t ∈ used, isStar t = false

namespace Scan

variable {isStar}

def start (pattern : List τ) (text : List α) : Scan isStar α :=
  ⟨pattern, text, none, by simp⟩

def backtrack (s : Scan isStar α) : Option (Scan isStar α) :=
  match s.retry with
  | none => none
  | some (pattern, text) =>
    some ⟨pattern, text.tail, some (pattern, text.tail), by
      rintro _ ⟨⟩
      exact ⟨[], [], rfl, rfl, rfl, by simp⟩⟩

def step (s : Scan isStar α) : Option (Scan isStar α) :=
  match s with
  | ⟨t :: pattern, a :: text, retry, within⟩ =>
    if hstar : isStar t then
      some ⟨pattern, a :: text, some (pattern, a :: text), by
        rintro _ ⟨⟩
        exact ⟨[], [], rfl, rfl, rfl, by simp⟩⟩
    else if fits t a then
      some ⟨pattern, text, retry, by
        intro r hr
        obtain ⟨used, run, h₁, h₂, hlen, hused⟩ := within r hr
        refine ⟨used ++ [t], run ++ [a], by simp [h₁], by simp [h₂], by simp [hlen], ?_⟩
        simp only [mem_append, mem_singleton]
        rintro x (hx | rfl)
        · exact hused x hx
        · simpa using hstar⟩
    else backtrack ⟨t :: pattern, a :: text, retry, within⟩
  | s => backtrack s

/-- The token and the symbol that the scan is at do not go together. -/
def Mismatch (fits : τ → α → Bool) (s : Scan isStar α) : Prop :=
  ∀ t pattern a text, s.pattern = t :: pattern → s.text = a :: text →
    isStar t = false ∧ fits t a = false

/-- What one turn can do: enter a star, use up a token and a symbol, or go back. -/
theorem step_cases {fits : τ → α → Bool} {s s' : Scan isStar α} (hne : s.text ≠ [])
    (h : s.step fits = some s') :
    (∃ t, s.pattern = t :: s'.pattern ∧ isStar t = true ∧ s'.text = s.text ∧
      s'.retry = some (s'.pattern, s.text)) ∨
    (∃ t a, s.pattern = t :: s'.pattern ∧ isStar t = false ∧ fits t a = true ∧
      s.text = a :: s'.text ∧ s'.retry = s.retry) ∨
    (s.Mismatch fits ∧
      ∃ text, s.retry = some (s'.pattern, text) ∧ s'.text = text.tail ∧
        s'.retry = some (s'.pattern, text.tail)) := by
  obtain ⟨pattern, text, retry, w⟩ := s
  obtain ⟨a, text, rfl⟩ := exists_cons_of_ne_nil hne
  have hbk : ∀ {s}, backtrack s = some s' → ∃ text, s.retry = some (s'.pattern, text) ∧
      s'.text = text.tail ∧ s'.retry = some (s'.pattern, text.tail) := by
    intro s hs
    unfold backtrack at hs
    split at hs
    · simp at hs
    · next heq =>
      cases hs
      exact ⟨_, heq, rfl, rfl⟩
  cases pattern with
  | nil => exact .inr (.inr ⟨by simp [Mismatch], hbk h⟩)
  | cons t pattern =>
    simp only [step] at h
    split_ifs at h with hstar hft
    · cases h
      exact .inl ⟨t, rfl, hstar, rfl, rfl⟩
    · cases h
      exact .inr (.inl ⟨t, a, rfl, by simpa using hstar, hft, rfl, rfl⟩)
    · refine .inr (.inr ⟨?_, hbk h⟩)
      rintro _ _ _ _ ⟨⟩ ⟨⟩
      exact ⟨by simpa using hstar, by simpa using hft⟩

theorem step_eq_none {fits : τ → α → Bool} {s : Scan isStar α} (hne : s.text ≠ [])
    (h : s.step fits = none) : s.Mismatch fits ∧ s.retry = none := by
  obtain ⟨pattern, text, retry, w⟩ := s
  obtain ⟨a, text, rfl⟩ := exists_cons_of_ne_nil hne
  have hbk : ∀ {s : Scan isStar α}, backtrack s = none → s.retry = none := by
    intro s hs
    unfold backtrack at hs
    split at hs
    · assumption
    · simp at hs
  cases pattern with
  | nil => exact ⟨by simp [Mismatch], hbk h⟩
  | cons t pattern =>
    simp only [step] at h
    split_ifs at h with hstar hft
    refine ⟨?_, hbk h⟩
    rintro _ _ _ _ ⟨⟩ ⟨⟩
    exact ⟨by simpa using hstar, by simpa using hft⟩

/-- The scan makes progress: it enters a later star, lets the last star take more, or
uses up a token. -/
def rank (s : Scan isStar α) : Nat × Nat × Nat :=
  match s.retry with
  | none => (s.pattern.length + 1, 0, 0)
  | some (pattern, text) => (pattern.length, text.length, s.pattern.length)

theorem rank_step {fits : τ → α → Bool} {s s' : Scan isStar α} (hne : s.text ≠ [])
    (h : s.step fits = some s') : Prod.Lex (· < ·) (Prod.Lex (· < ·) (· < ·)) s'.rank s.rank := by
  have hlen : ∀ p text, s.retry = some (p, text) → s.pattern.length ≤ p.length ∧ text ≠ [] := by
    intro p text hr
    obtain ⟨u, run, hp, ht, -⟩ := s.within _ hr
    simp only at hp ht
    refine ⟨by simp [hp], ?_⟩
    rw [ht]
    exact append_ne_nil_of_right_ne_nil _ hne
  obtain ⟨t, hp, -, -, hr⟩ | ⟨t, a, hp, -, -, -, hr⟩ | ⟨-, text, hr, -, hr'⟩ := step_cases hne h
  · rw [rank, hr, rank]
    cases hrty : s.retry with
    | none =>
      refine Prod.Lex.left _ _ ?_
      simp only [hp, length_cons]
      omega
    | some r =>
      have := (hlen r.1 r.2 hrty).1
      refine Prod.Lex.left _ _ ?_
      simp only [hp, length_cons] at this
      exact this
  · rw [rank, hr, rank]
    cases hrty : s.retry with
    | none =>
      refine Prod.Lex.left _ _ ?_
      simp [hp]
    | some r =>
      refine Prod.Lex.right _ (Prod.Lex.right _ ?_)
      simp [hp]
  · have hps := length_pos_iff.mpr (hlen _ _ hr).2
    rw [rank, hr', rank, hr]
    refine Prod.Lex.right _ (Prod.Lex.left _ _ ?_)
    simp only [length_tail]
    omega

end Scan

/-- The scan to its end. Once the text is used up, only stars may be left. -/
def scan (s : Scan isStar α) : Bool :=
  if _hne : s.text = [] then s.pattern.all isStar
  else
    match _hstep : s.step fits with
    | none => false
    | some s' => scan s'
termination_by s.rank
decreasing_by exact Scan.rank_step _hne _hstep

end

variable {isStar : τ → Bool} {fits : τ → α → Bool}

theorem matches_star {t : τ} (ht : isStar t = true) (pattern : List τ) (text : List α) :
    Matches isStar fits (t :: pattern) text ↔
      ∃ run rest, text = run ++ rest ∧ Matches isStar fits pattern rest := by
  simp [Matches, ht]

theorem matches_cons {t : τ} (ht : isStar t = false) (pattern : List τ) (a : α)
    (text : List α) : Matches isStar fits (t :: pattern) (a :: text) ↔
      fits t a = true ∧ Matches isStar fits pattern text := by
  simp [Matches, ht]

variable (pattern : List τ)

theorem matches_nil : Matches isStar fits pattern ([] : List α) ↔ pattern.all isStar = true := by
  induction pattern with
  | nil => simp [Matches]
  | cons t pattern ih =>
    cases ht : isStar t with
    | true => simp [matches_star ht, ih, ht]
    | false => simp [Matches, ht]

/-- Tokens that are no stars use up one symbol each. -/
theorem Matches.literals (used : List τ) {pattern : List τ} {text : List α}
    (hused : ∀ t ∈ used, isStar t = false) (h : Matches isStar fits (used ++ pattern) text) :
    ∃ run rest, text = run ++ rest ∧ List.Forall₂ (fits · · = true) used run ∧
      Matches isStar fits pattern rest := by
  induction used generalizing text with
  | nil => exact ⟨[], text, rfl, .nil, h⟩
  | cons t used ih =>
    simp only [cons_append, Matches, hused t mem_cons_self, Bool.false_eq_true, if_false] at h
    obtain ⟨a, text, rfl, hfit, h⟩ := h
    obtain ⟨run, rest, rfl, hrun, hrest⟩ := ih (forall_mem_cons.mp hused).2 h
    exact ⟨a :: run, rest, rfl, .cons hfit hrun, hrest⟩

theorem Matches.star_append {t : τ} (ht : isStar t = true) {pattern : List τ}
    {text : List α} (h : Matches isStar fits (t :: pattern) text) (before : List α) :
    Matches isStar fits (t :: pattern) (before ++ text) := by
  obtain ⟨run, rest, rfl, hrest⟩ := (matches_star ht ..).mp h
  exact (matches_star ht ..).mpr ⟨before ++ run, rest, by simp, hrest⟩

/-- A pattern matches the texts that can be cut into one piece for each token: any piece for a
star, one symbol that fits for every other token. -/
theorem matches_iff_pieces (text : List α) :
    Matches isStar fits pattern text ↔
      ∃ pieces : List (List α), pieces.flatten = text ∧
        List.Forall₂ (fun t piece => isStar t = true ∨ ∃ a, piece = [a] ∧ fits t a = true)
          pattern pieces := by
  induction pattern generalizing text with
  | nil =>
    constructor
    · rintro rfl
      exact ⟨[], rfl, .nil⟩
    · rintro ⟨pieces, rfl, hpcs⟩
      rw [forall₂_nil_left_iff.mp hpcs]
      rfl
  | cons t pattern ih =>
    cases ht : isStar t with
    | true =>
      rw [matches_star ht]
      constructor
      · rintro ⟨run, rest, rfl, hrest⟩
        obtain ⟨pieces, rfl, hpcs⟩ := (ih rest).mp hrest
        exact ⟨run :: pieces, rfl, .cons (.inl ht) hpcs⟩
      · rintro ⟨pieces, rfl, hpcs⟩
        obtain ⟨run, rest, -, hrest, rfl⟩ := forall₂_cons_left_iff.mp hpcs
        exact ⟨run, rest.flatten, rfl, (ih _).mpr ⟨rest, rfl, hrest⟩⟩
    | false =>
      simp only [Matches, ht, Bool.false_eq_true, if_false]
      constructor
      · rintro ⟨a, rest, rfl, hft, hrest⟩
        obtain ⟨pieces, rfl, hpcs⟩ := (ih rest).mp hrest
        exact ⟨[a] :: pieces, rfl, .cons (.inr ⟨a, rfl, hft⟩) hpcs⟩
      · rintro ⟨pieces, rfl, hpcs⟩
        obtain ⟨piece, rest, hpc, hrest, rfl⟩ := forall₂_cons_left_iff.mp hpcs
        obtain ⟨a, rfl, hft⟩ := hpc.resolve_left (by simp [ht])
        exact ⟨a, rest.flatten, rfl, hft, (ih _).mpr ⟨rest, rfl, hrest⟩⟩

/-- Translating the tokens and the symbols first is matching through the translation. -/
theorem matches_map {τ' α' : Type*} (f : τ' → τ) (g : α' → α) (pattern : List τ')
    (text : List α') : Matches isStar fits (pattern.map f) (text.map g) ↔
      Matches (fun t => isStar (f t)) (fun t a => fits (f t) (g a)) pattern text := by
  induction pattern generalizing text with
  | nil => simp [Matches]
  | cons t pattern ih =>
    cases ht : isStar (f t) with
    | true =>
      rw [map_cons, matches_star ht, @matches_star _ _ (fun t => isStar (f t)) _ _ ht]
      constructor
      · rintro ⟨run, rest, heq, hmt⟩
        obtain ⟨run', rest', rfl, rfl, rfl⟩ := map_eq_append_iff.mp heq
        exact ⟨run', rest', rfl, (ih rest').mp hmt⟩
      · rintro ⟨run, rest, rfl, hmt⟩
        exact ⟨run.map g, rest.map g, map_append, (ih rest).mpr hmt⟩
    | false =>
      cases text with
      | nil => simp [Matches, ht]
      | cons a text =>
        rw [map_cons, map_cons, matches_cons ht,
          @matches_cons _ _ (fun t => isStar (f t)) _ _ ht, ih]

namespace Scan

/-- A match is still to be found: here, or with more symbols in the run of the last star. -/
def Open (fits : τ → α → Bool) (s : Scan isStar α) : Prop :=
  Matches isStar fits s.pattern s.text ∨
    ∃ r ∈ s.retry, ∃ run rest, run ≠ [] ∧ r.2 = run ++ rest ∧ Matches isStar fits r.1 rest

variable {s s' : Scan isStar α}

/-- Once the text is used up, the last star has nothing more to take: the tokens behind it
have used up one symbol each. -/
theorem open_of_text_nil (h : s.text = []) : s.Open fits ↔ s.pattern.all isStar = true := by
  rw [Open, h, matches_nil]
  refine or_iff_left ?_
  rintro ⟨r, hr, run, rest, hne, htx, hmt⟩
  obtain ⟨u, run', hp, ht, hlen, hused⟩ := s.within r hr
  rw [hp] at hmt
  obtain ⟨run'', rest', rfl, hfit, -⟩ := hmt.literals u hused
  have hrun := hfit.length_eq
  have htotal := congrArg List.length (htx.symm.trans ht)
  have := length_pos_iff.mpr hne
  simp only [h, append_nil, length_append] at htotal
  omega

/-- A match further along for the last star is also one for a star met since. -/
theorem matches_of_retry {t : τ} (ht : isStar t = true) {pattern : List τ}
    (hp : s.pattern = t :: pattern) {r : List τ × List α} (hr : r ∈ s.retry)
    {run rest : List α} (htx : r.2 = run ++ rest) (h : Matches isStar fits r.1 rest) :
    Matches isStar fits s.pattern s.text := by
  obtain ⟨u, run', hpat, ht', hlen, hused⟩ := s.within r hr
  rw [hpat, hp] at h
  obtain ⟨run'', rest', rfl, hfit, hmt⟩ := h.literals u hused
  have hrun : run'.length = run''.length := hlen.symm.trans hfit.length_eq
  -- the symbols in front of `rest'` include everything used up since the last star
  have hsuf : rest' <:+ s.text := by
    have hlf : rest' <:+ r.2 := ⟨run ++ run'', by rw [htx]; simp⟩
    have hrt : s.text <:+ r.2 := ⟨run', ht'.symm⟩
    refine suffix_of_suffix_length_le hlf hrt ?_
    · have := congrArg List.length (htx.symm.trans ht')
      simp only [length_append] at this
      omega
  obtain ⟨before, hb⟩ := hsuf
  rw [hp, ← hb]
  exact hmt.star_append ht before

theorem Mismatch.not_matches (h : s.Mismatch fits) (hne : s.text ≠ []) :
    ¬Matches isStar fits s.pattern s.text := by
  obtain ⟨a, text, htx⟩ := exists_cons_of_ne_nil hne
  cases hp : s.pattern with
  | nil => simp [Matches, htx]
  | cons t pattern =>
    obtain ⟨ht, hfit⟩ := h t pattern a text hp htx
    rw [htx, matches_cons ht]
    simp [hfit]

/-- A turn of the scan loses no match and invents none. -/
theorem open_step (hne : s.text ≠ []) (h : s.step fits = some s') : s.Open fits ↔ s'.Open fits := by
  obtain ⟨t, hp, ht, htx, hr⟩ | ⟨t, a, hp, ht, hfit, htx, hr⟩ | ⟨hno, text, hr, htx, hr'⟩ :=
    step_cases hne h
  · have hstar : s.Open fits ↔ Matches isStar fits s.pattern s.text := by
      refine or_iff_left_of_imp ?_
      rintro ⟨r, hmem, run, rest, -, heq, hmt⟩
      exact matches_of_retry ht hp hmem heq hmt
    rw [hstar, hp, matches_star ht, Open, hr, htx]
    constructor
    · rintro ⟨run, rest, heq, hmt⟩
      by_cases hrun : run = []
      · subst hrun
        exact .inl (by rwa [heq])
      · exact .inr ⟨_, rfl, run, rest, hrun, heq, hmt⟩
    · rintro (hmt | ⟨r, ⟨⟩, run, rest, -, heq, hmt⟩)
      · exact ⟨[], s.text, rfl, hmt⟩
      · exact ⟨run, rest, heq, hmt⟩
  · rw [Open, Open, hr, hp, htx, matches_cons ht]
    simp [hfit]
  · have hbk : s.Open fits ↔ ∃ run rest, run ≠ [] ∧ text = run ++ rest ∧
        Matches isStar fits s'.pattern rest := by
      rw [Open, hr]
      simp [hno.not_matches hne]
    obtain ⟨u, run', -, hrun', -⟩ := s.within _ hr
    obtain ⟨x, text, rfl⟩ : ∃ x tail, text = x :: tail :=
      exists_cons_of_ne_nil (by simpa [hne] using fun h => by simp [h, hne] at hrun')
    rw [hbk, Open, hr', htx]
    constructor
    · rintro ⟨run, rest, hrun, heq, hmt⟩
      obtain ⟨y, run, rfl⟩ := exists_cons_of_ne_nil hrun
      obtain ⟨rfl, rfl⟩ := List.cons.inj heq
      by_cases hem : run = []
      · exact .inl (by simpa [hem] using hmt)
      · exact .inr ⟨_, rfl, run, rest, hem, rfl, hmt⟩
    · rintro (hmt | ⟨r, ⟨⟩, run, rest, -, heq, hmt⟩)
      · exact ⟨[x], text, by simp, rfl, hmt⟩
      · exact ⟨x :: run, rest, by simp, congrArg (x :: ·) heq, hmt⟩

end Scan

theorem scan_eq_true_iff (s : Scan isStar α) : scan isStar fits s = true ↔ s.Open fits := by
  induction s using scan.induct isStar fits with
  | case1 s h => rw [scan, dif_pos h, Scan.open_of_text_nil h]
  | case2 s hne hst =>
    obtain ⟨hno, hrty⟩ := Scan.step_eq_none hne hst
    rw [scan, dif_neg hne, hst]
    simp [Scan.Open, hrty, hno.not_matches hne]
  | case3 s hne s' hst ih =>
    rw [scan, dif_neg hne, Scan.open_step hne hst, ← ih, hst]

/-- From its start the scan decides whether the pattern matches the text. -/
theorem scan_start (text : List α) :
    scan isStar fits (Scan.start pattern text) = true ↔ Matches isStar fits pattern text := by
  rw [scan_eq_true_iff]
  simp [Scan.Open, Scan.start]

end Wildcard
