import Pingclair.Layer4.Fragmentation

/-!
# Reading ahead

Before a connection that may be TLS is routed, the session reads as much of it as the verdict
needs, but no more than a limit. What it has read is handed to the relay, which writes it first.

A verdict other than to need more stays, whatever is read behind it. To need more is to need a
number of bytes, and fewer do not change it.
-/

namespace Pingclair

open ByteText List Option

namespace Hello

/-- A verdict stays, or asks for more: then it asks for the same until that much is there. The
first byte is an exception, as it may settle the matter alone. -/
theorem classify_append (wire later : Bytes) :
    (∃ size, classify wire = .needMore size ∧ wire.length < size ∧
        (wire ≠ [] → (wire ++ later).length < size → classify (wire ++ later) = .needMore size)) ∨
      SameVerdict (classify wire) (classify (wire ++ later)) ∧
        ∀ size, classify wire ≠ .needMore size := by
  rcases wire with _ | ⟨fr, wire⟩
  · have hem : classify [] = .needMore 5 :=
      judges_more_iff.mp (judges_classify (.short (by simp)) rfl)
    exact .inl ⟨5, hem, by simp, fun hne => absurd rfl hne⟩
  by_cases hf : fr ≠ 22
  · have hnotTls (rest : Bytes) : classify (fr :: rest) = .notTls :=
      if_pos (by simp [hf])
    rw [cons_append, hnotTls, hnotTls]
    exact .inr ⟨trivial, by simp⟩
  have hhd (rest : Bytes) : (fr :: rest).head?.any (· ≠ 22) = false := by
    simpa using not_not.mp hf
  obtain ⟨m, f, hsup⟩ := exists_supplies 0 (fr :: wire)
  have hj := judges_classify hsup (hhd wire)
  rcases hsup.append later with
    ⟨rfl, hdecl⟩ | ⟨size, rfl, hlt, hsm, more, f', hmo⟩
  · refine .inr ⟨hj.same (judges_classify hdecl (hhd _)), fun size hsz => ?_⟩
    rw [hsz] at hj
    rcases helloOf_append .declined .declined m [] with hmsg | ⟨-, hn⟩
    · exact absurd (hmsg.symm.trans hj.of_needMore) (by simp)
    · exact hn size hj.of_needMore
  · rcases helloOf_append (.more size) f' m more with hmsg | ⟨heq, hn⟩
    · rw [hmsg] at hj
      refine .inl ⟨size, judges_more_iff.mp hj, by omega, fun _ hle => ?_⟩
      have hj' := judges_classify (hsm (by omega)) (hhd _)
      rw [hmsg] at hj'
      exact judges_more_iff.mp hj'
    · have hj' := judges_classify hmo (hhd _)
      rw [heq] at hj'
      refine .inr ⟨hj.same hj', fun size hsz => ?_⟩
      rw [hsz] at hj
      exact hn size hj.of_needMore

variable {size limit needed : Nat} {got : Bytes} {reads : List Bytes}

theorem length_lt_of_needMore {wire : Bytes} (h : classify wire = .needMore size) :
    wire.length < size := by
  rcases classify_append wire [] with ⟨size', hsz, hlt, -⟩ | ⟨-, hn⟩
  · cases hsz.symm.trans h
    exact hlt
  · exact absurd h (hn size)

theorem needMore_append {wire later : Bytes} (h : classify wire = .needMore size) (hne : wire ≠ [])
    (hle : (wire ++ later).length < size) : classify (wire ++ later) = .needMore size := by
  rcases classify_append wire later with ⟨size', hsz, -, hsm⟩ | ⟨-, hn⟩
  · cases hsz.symm.trans h
    exact hsm hne hle
  · exact absurd h (hn size)

/-! ### The session -/

inductive Preread where
  | classified (bytes : Bytes)
  | eof
  | overflow
  | waiting (bytes : Bytes) (needed : Nat)

/-- Reading ahead, with `needed` bytes asked for in all. A read gets the room up to them, and an
empty one is the end of the stream. When the verdict is to need more, it needs more than there
is, so the next thing is a read. -/
def preread (limit : Nat) : (reads : List Bytes) → (got : Bytes) → (needed : Nat) → Preread
  | [], got, needed => .waiting got needed
  | chunk :: reads, got, needed =>
    if chunk = [] then .eof
    else if (got ++ chunk).length < needed then preread limit reads (got ++ chunk) needed
    else
      match classify (got ++ chunk) with
      | .needMore size =>
        if limit < size then .overflow else preread limit reads (got ++ chunk) size
      | _ => .classified (got ++ chunk)

/-- What was read is what is handed on. -/
theorem preread_eq_flatten {bs : Bytes} (h : preread limit reads got needed = .classified bs) :
    ∃ used unused, reads = used ++ unused ∧ bs = got ++ used.flatten := by
  induction reads generalizing got needed with
  | nil => cases h
  | cons c reads ih =>
    -- one more read, and then those of the rest
    have hmo : ∀ {needed}, preread limit reads (got ++ c) needed = .classified bs →
        ∃ used unused, c :: reads = used ++ unused ∧ bs = got ++ used.flatten := by
      intro needed hrest
      obtain ⟨used, unused, rfl, rfl⟩ := ih hrest
      exact ⟨c :: used, unused, rfl, by rw [flatten_cons, append_assoc]⟩
    rw [preread] at h
    split at h
    · cases h
    split at h
    · exact hmo h
    split at h
    · split at h
      · cases h
      · exact hmo h
    · cases h
      exact ⟨[c], reads, rfl, by simp⟩

/-- Reads that stay inside the room they are given. -/
def Fits (limit : Nat) : (reads : List Bytes) → (got : Bytes) → (needed : Nat) → Prop
  | [], _, _ => True
  | chunk :: reads, got, needed =>
    chunk.length ≤ needed - got.length ∧
      if (got ++ chunk).length < needed then Fits limit reads (got ++ chunk) needed
      else
        match classify (got ++ chunk) with
        | .needMore size => Fits limit reads (got ++ chunk) size
        | _ => True

/-- While reads are waited for there is room for them, inside the limit. -/
theorem preread_waiting {needed' : Nat} {got' : Bytes} (hg : got.length < needed)
    (hlim : needed ≤ limit) (h : preread limit reads got needed = .waiting got' needed') :
    got' = got ++ reads.flatten ∧ got'.length < needed' ∧ needed' ≤ limit := by
  induction reads generalizing got needed with
  | nil =>
    cases h
    exact ⟨(append_nil _).symm, hg, hlim⟩
  | cons c reads ih =>
    rw [flatten_cons, ← append_assoc]
    rw [preread] at h
    split at h
    · cases h
    split at h
    · next hsh => exact ih hsh hlim h
    split at h
    · next size hmo =>
      split at h
      · cases h
      · next hsz => exact ih (length_lt_of_needMore hmo) (Nat.not_lt.mp hsz) h
    · cases h

theorem preread_congr {ch ch' got' : Bytes} (reads : List Bytes) (hne : ch ≠ []) (hne' : ch' ≠ [])
    (h : got ++ ch = got' ++ ch') :
    preread limit (ch :: reads) got needed = preread limit (ch' :: reads) got' needed := by
  rw [preread, preread, if_neg hne, if_neg hne', h]

/-- A read in its room does the same as reads of its bytes one by one. -/
theorem preread_bytes {ch : Bytes} (reads : List Bytes) (hne : ch ≠ [])
    (hrm : ch.length ≤ needed - got.length) :
    preread limit (ch.map ([·]) ++ reads) got needed = preread limit (ch :: reads) got needed := by
  induction ch generalizing got with
  | nil => exact absurd rfl hne
  | cons b ch ih =>
    cases ch with
    | nil => rfl
    | cons b' ch =>
      simp only [length_cons] at hrm
      have hsh : (got ++ [b]).length < needed := by
        rw [length_append, length_singleton]
        omega
      rw [map_cons, cons_append, preread, if_pos hsh]
      refine (ih (by simp) ?_).trans (preread_congr reads (by simp) (by simp) (by simp))
      rw [length_append, length_singleton, length_cons]
      omega

/-- However the bytes are cut into reads, the end is the same. -/
theorem preread_chunks {chunks : List Bytes} (tail : List Bytes) (hne : ∀ ch ∈ chunks, ch ≠ [])
    (hft : Fits limit chunks got needed) :
    preread limit (chunks ++ tail) got needed =
      preread limit (chunks.flatten.map ([·]) ++ tail) got needed := by
  induction chunks generalizing got needed with
  | nil => rfl
  | cons ch chunks ih =>
    obtain ⟨hrm, hrest⟩ := hft
    have hlat : ∀ ch ∈ chunks, ch ≠ [] := fun ch hchunk =>
      hne ch (mem_cons_of_mem _ hchunk)
    have hchunk := hne ch mem_cons_self
    rw [flatten_cons, map_append, append_assoc, preread_bytes _ hchunk hrm,
      cons_append, preread, preread]
    by_cases hsh : (got ++ ch).length < needed
    · rw [if_pos hsh] at hrest ⊢
      rw [if_pos hsh, ih hlat hrest]
    · rw [if_neg hsh] at hrest ⊢
      rw [if_neg hsh]
      cases hvd : classify (got ++ ch) with
      | needMore size =>
        rw [hvd] at hrest
        dsimp only
        rw [ih hlat hrest]
      | notTls | tls => rfl

/-- What is known while reading ahead: no part of what was read, nor of what may still be read
before the next verdict, would have been enough. -/
def Needed (got : Bytes) (needed : Nat) : Prop :=
  ∀ more part, part <+: got ++ more → part.length < needed → ∃ size, classify part = .needMore size

theorem needed_start : Needed [] 1 := by
  intro more part _ hlen
  obtain rfl : part = [] := length_eq_zero_iff.mp (Nat.lt_one_iff.mp hlen)
  exact ⟨5, judges_more_iff.mp (judges_classify (.short (by simp)) rfl)⟩

theorem Needed.more (h : Needed got needed) (hlen : got.length = needed) (hne : got ≠ [])
    (hsz : classify got = .needMore size) : Needed got size := by
  intro more part hpr hle
  by_cases hsh : part.length < needed
  · exact h more part hpr hsh
  · obtain ⟨l, rfl⟩ : got <+: part :=
      prefix_of_prefix_length_le (prefix_append got more) hpr (by omega)
    exact ⟨size, needMore_append hsz hne hle⟩

theorem Needed.append (h : Needed got needed) (ch : Bytes) :
    Needed (got ++ ch) needed := fun more part hpr =>
  h (ch ++ more) part (by rwa [← append_assoc])

/-- No more is read than the limit and than the verdict needs. -/
theorem preread_needed {bs : Bytes} (hft : Fits limit reads got needed) (hg : got.length ≤ needed)
    (hlim : needed ≤ limit) (hneeded : Needed got needed)
    (h : preread limit reads got needed = .classified bs) :
    bs.length ≤ limit ∧ (∀ size, classify bs ≠ .needMore size) ∧
      ∀ part, part <+: bs → part ≠ bs → ∃ size, classify part = .needMore size := by
  induction reads generalizing got needed with
  | nil => cases h
  | cons c reads ih =>
    obtain ⟨hchunk, hrest⟩ := hft
    have hlen : (got ++ c).length ≤ needed := by
      rw [length_append]
      omega
    rw [preread] at h
    split at h
    · cases h
    next hchunk =>
    split at h
    · next hsh =>
      rw [if_pos hsh] at hrest
      exact ih hrest hlen hlim (hneeded.append c) h
    · next hsh =>
      rw [if_neg hsh] at hrest
      have hfull : (got ++ c).length = needed := by omega
      split at h
      · next size hmo =>
        rw [hmo] at hrest
        split at h
        · cases h
        · next hsz =>
          exact ih hrest (length_lt_of_needMore hmo).le (Nat.not_lt.mp hsz)
            ((hneeded.append c).more hfull (by simp [hchunk]) hmo) h
      · next hvd =>
        cases h
        refine ⟨hlen.trans hlim, hvd, fun part hpr hne => ?_⟩
        refine (hneeded.append c) [] part (by rwa [append_nil]) ?_
        have hle := hpr.length_le
        exact hfull ▸ Nat.lt_of_le_of_ne hle fun heq => hne (hpr.eq_of_length heq)

def readAhead (limit : Nat) (reads : List Bytes) : Preread :=
  if limit < 1 then .overflow else preread limit reads [] 1

/-- Verdicts are not changed by what follows, except that more is needed until it is there. So
reading ahead goes on as long as more is needed, reads nothing that is not, and ends the same
however the bytes come in. -/
theorem preread_stable (wire later : Bytes) (limit : Nat) :
    (classify wire = .notTls → classify (wire ++ later) = .notTls) ∧
    (∀ hello, classify wire = .tls hello → ∃ hello', classify (wire ++ later) = .tls hello' ∧
      (∀ name, hello.matchesSni name = hello'.matchesSni name) ∧
      ∀ protocol, hello.offersAlpn protocol = hello'.offersAlpn protocol) ∧
    (∀ size, classify wire = .needMore size → wire.length < size ∧
      (wire ≠ [] → (wire ++ later).length < size → classify (wire ++ later) = .needMore size)) ∧
    (∀ reads got needed, readAhead limit reads = .waiting got needed →
      got = reads.flatten ∧ got.length < needed ∧ needed ≤ limit) ∧
    (∀ reads bytes, Fits limit reads [] 1 → readAhead limit reads = .classified bytes →
      (∃ used unused, reads = used ++ unused ∧ bytes = used.flatten) ∧ bytes.length ≤ limit ∧
      (∀ size, classify bytes ≠ .needMore size) ∧
      ∀ part, part <+: bytes → part ≠ bytes → ∃ size, classify part = .needMore size) ∧
    ∀ chunks tail, (∀ chunk ∈ chunks, chunk ≠ []) → Fits limit chunks [] 1 →
      readAhead limit (chunks ++ tail) = readAhead limit (chunks.flatten.map ([·]) ++ tail) := by
  have hsm : (∀ size, classify wire ≠ .needMore size) →
      SameVerdict (classify wire) (classify (wire ++ later)) := fun hn =>
    (classify_append wire later).elim (fun ⟨size, hsz, _⟩ => absurd hsz (hn size)) And.left
  have hlim {reads : List Bytes} {result : Preread} (h : readAhead limit reads = result)
      (hne : result ≠ .overflow) : 1 ≤ limit ∧ preread limit reads [] 1 = result := by
    rw [readAhead] at h
    split at h
    · exact absurd h.symm hne
    · next hlim => exact ⟨Nat.not_lt.mp hlim, h⟩
  refine ⟨fun h => ?_, fun hello h => ?_, fun size h => ?_, ?_, ?_, ?_⟩
  · have hvd := hsm (by simp [h])
    rw [h] at hvd
    cases hlat : classify (wire ++ later) with
    | notTls => rfl
    | needMore | tls =>
      rw [hlat] at hvd
      exact hvd.elim
  · have hvd := hsm (by simp [h])
    rw [h] at hvd
    cases hlat : classify (wire ++ later) with
    | tls hello' =>
      rw [hlat] at hvd
      exact ⟨hello', rfl, hvd⟩
    | needMore | notTls =>
      rw [hlat] at hvd
      exact hvd.elim
  · exact ⟨length_lt_of_needMore h, needMore_append h⟩
  · intro reads got needed h
    obtain ⟨hlim, h⟩ := hlim h (by simp)
    exact preread_waiting Nat.one_pos hlim h
  · intro reads bytes hft h
    obtain ⟨hlim, h⟩ := hlim h (by simp)
    exact ⟨preread_eq_flatten h, preread_needed hft (Nat.zero_le 1) hlim needed_start h⟩
  · intro chunks tail hne hft
    rw [readAhead, readAhead, preread_chunks tail hne hft]

end Hello

end Pingclair
