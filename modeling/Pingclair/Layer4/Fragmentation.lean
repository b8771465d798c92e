import Pingclair.Layer4.Hello

/-!
# Records do not matter

What can be read of a message is what the whole records at the front of the wire carry
(`Supplies`), up to a fault: the next record is not all there, or it is no record of a handshake.
Once the message is there in its declared length, the fields are read from plain bytes.
-/

namespace Pingclair

open ByteText AsciiCase List Option

namespace Hello

/-- Neither reader can make anything of the input, however it goes on. -/
def BothDecline (e e' : ParseError) : Prop := e = .declined ∧ e' = .declined

/-! ### Two readers of one message -/

section

variable {γ δ : Type} [FieldReader γ] [FieldReader δ]

/-- Whatever is read with one of two related readers is read with the other. -/
structure Simulates (R : γ → δ → Prop) : Prop where
  left_eq : ∀ {c d}, R c d → left c = left d
  byte : ∀ {c d}, R c d → Alike BothDecline (fun a b => a.1 = b.1 ∧ R a.2 b.2) (byte c) (byte d)
  take : ∀ {c d}, R c d → ∀ n,
    Alike BothDecline (fun a b => R a.1 b.1 ∧ R a.2 b.2) (take c n) (take d n)

/-- Fields that are both absent or both present and related. -/
def SameHello (R : γ → δ → Prop) (a : ClientHello γ) (b : ClientHello δ) : Prop :=
  Option.Rel R a.sni b.sni ∧ Option.Rel R a.alpn b.alpn

namespace Simulates

variable {R : γ → δ → Prop} (sim : Simulates R) {c : γ} {d : δ}

include sim

theorem word (h : R c d) :
    Alike BothDecline (fun a b => a.1 = b.1 ∧ R a.2 b.2) (word c) (word d) := by
  refine (sim.byte h).bind ?_
  rintro ⟨high, c⟩ ⟨_, d⟩ ⟨rfl, h⟩
  refine (sim.byte h).bind ?_
  rintro ⟨low, c⟩ ⟨_, d⟩ ⟨rfl, h⟩
  exact .ok ⟨rfl, h⟩

theorem bytesMatch_eq (insensitive : Bool) (bytes : Bytes) (h : R c d) :
    bytesMatch insensitive c bytes = bytesMatch insensitive d bytes := by
  induction bytes generalizing c d with
  | nil => rfl
  | cons e bytes ih =>
    rw [bytesMatch, bytesMatch]
    rcases (sim.byte h).cases_on with ⟨_, _, hc, hd, -⟩ | ⟨⟨b, c⟩, ⟨_, d⟩, hc, hd, rfl, h⟩
    · rw [hc, hd]
    · rw [hc, hd]
      dsimp only
      rw [ih h]

theorem equals_eq (bs : Bytes) (insensitive : Bool) (h : R c d) :
    equals c bs insensitive = equals d bs insensitive := by
  rw [equals, equals, sim.left_eq h, sim.bytesMatch_eq insensitive bs h]

theorem protocolsOffer_eq (proto : Bytes) (turns : Nat) (h : R c d) :
    protocolsOffer proto turns c = protocolsOffer proto turns d := by
  induction turns generalizing c d with
  | zero => rfl
  | succ turns ih =>
    rw [protocolsOffer, protocolsOffer, sim.left_eq h]
    split
    · rfl
    rcases (sim.byte h).cases_on with ⟨_, _, hc, hd, -⟩ | ⟨⟨l, c⟩, ⟨_, d⟩, hc, hd, rfl, h⟩
    · rw [hc, hd]
    rw [hc, hd]
    dsimp only
    rcases (sim.take h l.toNat).cases_on with
      ⟨_, _, hc, hd, -⟩ | ⟨⟨field, c⟩, ⟨field', d⟩, hc, hd, hfld, h⟩
    · rw [hc, hd]
    · rw [hc, hd]
      dsimp only
      rw [sim.equals_eq proto false hfld, ih h]

theorem skipFixed (h : R c d) : Alike BothDecline R (skipFixed c) (skipFixed d) := by
  refine (sim.take h 34).bind ?_
  rintro ⟨_, c⟩ ⟨_, d⟩ ⟨-, h⟩
  refine (sim.byte h).bind ?_
  rintro ⟨s, c⟩ ⟨_, d⟩ ⟨rfl, h⟩
  refine .ite Iff.rfl (.error ⟨rfl, rfl⟩) ?_
  refine (sim.take h _).bind ?_
  rintro ⟨_, c⟩ ⟨_, d⟩ ⟨-, h⟩
  refine (sim.word h).bind ?_
  rintro ⟨cs, c⟩ ⟨_, d⟩ ⟨rfl, h⟩
  refine .ite Iff.rfl (.error ⟨rfl, rfl⟩) ?_
  refine (sim.take h _).bind ?_
  rintro ⟨_, c⟩ ⟨_, d⟩ ⟨-, h⟩
  refine (sim.byte h).bind ?_
  rintro ⟨compression, c⟩ ⟨_, d⟩ ⟨rfl, h⟩
  refine .ite Iff.rfl (.error ⟨rfl, rfl⟩) ?_
  refine (sim.take h _).bind ?_
  rintro ⟨_, c⟩ ⟨_, d⟩ ⟨-, h⟩
  exact .ok h

theorem readSni (h : R c d) : Alike BothDecline R (readSni c) (readSni d) := by
  refine (sim.word h).bind ?_
  rintro ⟨l, c⟩ ⟨_, d⟩ ⟨rfl, h⟩
  refine .ite (by rw [sim.left_eq h]) (.error ⟨rfl, rfl⟩) ?_
  refine (sim.byte h).bind ?_
  rintro ⟨kind, c⟩ ⟨_, d⟩ ⟨rfl, h⟩
  refine .ite Iff.rfl (.error ⟨rfl, rfl⟩) ?_
  refine (sim.word h).bind ?_
  rintro ⟨name, c⟩ ⟨_, d⟩ ⟨rfl, h⟩
  refine .ite (by rw [sim.left_eq h]) (.error ⟨rfl, rfl⟩) ?_
  refine (sim.take h _).bind ?_
  rintro ⟨field, _⟩ ⟨field', _⟩ ⟨hfld, -⟩
  exact .ok hfld

/-- Steps that end alike, repeated. -/
theorem whileLeft {σ τ : Type} {S : σ → τ → Prop}
    {body : γ → σ → Except ParseError (γ × σ)} {body' : δ → τ → Except ParseError (δ × τ)}
    (hbody : ∀ {c d s t}, R c d → S s t →
      Alike BothDecline (fun a b => R a.1 b.1 ∧ S a.2 b.2) (body c s) (body' d t))
    (turns : Nat) {s : σ} {t : τ} (h : R c d) (hst : S s t) :
    Alike BothDecline S (whileLeft body turns c s) (whileLeft body' turns d t) := by
  induction turns generalizing c d s t with
  | zero => exact .ok hst
  | succ turns ih =>
    refine .ite (by rw [sim.left_eq h]) (.ok hst) ((hbody h hst).bind ?_)
    rintro ⟨c, s⟩ ⟨d, t⟩ ⟨h, hst⟩
    exact ih h hst

theorem checkProtocol {u v : Unit} (h : R c d) :
    Alike BothDecline (fun a b => R a.1 b.1 ∧ True) (checkProtocol c u) (checkProtocol d v) := by
  refine (sim.byte h).bind ?_
  rintro ⟨l, c⟩ ⟨_, d⟩ ⟨rfl, h⟩
  refine .ite Iff.rfl (.error ⟨rfl, rfl⟩) ?_
  refine (sim.take h _).bind ?_
  rintro ⟨_, c⟩ ⟨_, d⟩ ⟨-, h⟩
  exact .ok ⟨h, trivial⟩

theorem readAlpn (h : R c d) : Alike BothDecline R (readAlpn c) (readAlpn d) := by
  refine (sim.word h).bind ?_
  rintro ⟨l, c⟩ ⟨_, d⟩ ⟨rfl, h⟩
  refine .ite (by rw [sim.left_eq h]) (.error ⟨rfl, rfl⟩) ?_
  rw [sim.left_eq h]
  refine (sim.whileLeft (S := fun _ _ => True) (fun h _ => sim.checkProtocol h) _ h
    trivial).bind ?_
  intro _ _ _
  exact .ok h

def SameProgress (R : γ → δ → Prop) (a : Progress γ) (b : Progress δ) : Prop :=
  SameHello R a.toClientHello b.toClientHello ∧ a.sawSni = b.sawSni ∧ a.sawAlpn = b.sawAlpn

theorem readExtension {a : Progress γ} {b : Progress δ} (hab : SameProgress R a b) (kind : Nat)
    (h : R c d) :
    Alike BothDecline (SameProgress R) (readExtension a kind c) (readExtension b kind d) := by
  obtain ⟨⟨hsni, halpn⟩, hsawSni, hsawAlpn⟩ := hab
  refine .ite Iff.rfl ?_ (.ite Iff.rfl ?_ (.ok ⟨⟨hsni, halpn⟩, hsawSni, hsawAlpn⟩))
  · refine .ite (by rw [hsawSni]) (.error ⟨rfl, rfl⟩) ((sim.readSni h).bind ?_)
    intro name name' hn
    exact .ok ⟨⟨.some hn, halpn⟩, rfl, hsawAlpn⟩
  · refine .ite (by rw [hsawAlpn]) (.error ⟨rfl, rfl⟩) ((sim.readAlpn h).bind ?_)
    intro ps ps' hprotocols
    exact .ok ⟨⟨hsni, .some hprotocols⟩, hsawSni, rfl⟩

theorem nextExtension {a : Progress γ} {b : Progress δ} (h : R c d) (hab : SameProgress R a b) :
    Alike BothDecline (fun x y => R x.1 y.1 ∧ SameProgress R x.2 y.2) (nextExtension c a)
      (nextExtension d b) := by
  refine (sim.word h).bind ?_
  rintro ⟨kind, c⟩ ⟨_, d⟩ ⟨rfl, h⟩
  refine (sim.word h).bind ?_
  rintro ⟨l, c⟩ ⟨_, d⟩ ⟨rfl, h⟩
  refine (sim.take h _).bind ?_
  rintro ⟨e, c⟩ ⟨e', d⟩ ⟨hextension, h⟩
  refine (sim.readExtension hab kind hextension).bind ?_
  intro a b hab
  exact .ok ⟨h, hab⟩

theorem readBody (h : R c d) : Alike BothDecline (SameHello R) (readBody c) (readBody d) := by
  refine (sim.skipFixed h).bind ?_
  intro c d h
  refine .ite (by rw [sim.left_eq h]) (.ok ⟨.none, .none⟩) ?_
  refine (sim.word h).bind ?_
  rintro ⟨es, c⟩ ⟨_, d⟩ ⟨rfl, h⟩
  refine .ite (by rw [sim.left_eq h]) (.error ⟨rfl, rfl⟩) ?_
  rw [sim.left_eq h]
  refine (sim.whileLeft (S := SameProgress R) sim.nextExtension _ h
    ⟨⟨.none, .none⟩, rfl, rfl⟩).bind ?_
  intro a b hab
  exact .ok hab.1

theorem matchesSni_eq {a : ClientHello γ} {b : ClientHello δ} (h : SameHello R a b)
    (name : Bytes) : a.matchesSni name = b.matchesSni name := by
  obtain ⟨sni, alpn⟩ := a
  obtain ⟨sni', alpn'⟩ := b
  obtain ⟨hsni : Option.Rel R sni sni', -⟩ := h
  cases hsni with
  | some hsni => exact sim.equals_eq name true hsni
  | none => rfl

theorem offersAlpn_eq {a : ClientHello γ} {b : ClientHello δ} (h : SameHello R a b)
    (protocol : Bytes) : a.offersAlpn protocol = b.offersAlpn protocol := by
  obtain ⟨sni, alpn⟩ := a
  obtain ⟨sni', alpn'⟩ := b
  obtain ⟨-, halpn : Option.Rel R alpn alpn'⟩ := h
  cases halpn with
  | some halpn =>
    simp only [ClientHello.offersAlpn, any_some, sim.left_eq halpn]
    exact sim.protocolsOffer_eq protocol _ halpn
  | none => rfl

end Simulates

end

/-- The message that the whole records at the front of a wire carry, and what becomes of an attempt
to read on. The wire starts at `pos`. -/
inductive Supplies : (pos : Nat) → (wire message : Bytes) → (fault : ParseError) → Prop
  | short {pos : Nat} {wire : Bytes} :
    wire.length < 5 → Supplies pos wire [] (.more (pos + 5))
  | foreign {pos : Nat} {kind major minor high low : UInt8} {wire : Bytes} :
    kind ≠ 22 ∨ major ≠ 3 →
      Supplies pos (kind :: major :: minor :: high :: low :: wire) [] .declined
  | cut {pos : Nat} {minor high low : UInt8} {wire : Bytes} :
    wire.length < high.toNat * 256 + low.toNat →
      Supplies pos (22 :: 3 :: minor :: high :: low :: wire) []
        (.more (pos + 5 + (high.toNat * 256 + low.toNat)))
  | whole {pos : Nat} {minor high low : UInt8} {body wire message : Bytes} {fault : ParseError} :
    body.length = high.toNat * 256 + low.toNat →
      Supplies (pos + 5 + body.length) wire message fault →
      Supplies pos (22 :: 3 :: minor :: high :: low :: (body ++ wire)) (body ++ message) fault

theorem exists_supplies (pos : Nat) (wire : Bytes) :
    ∃ message fault, Supplies pos wire message fault := by
  induction hlen : wire.length using Nat.strongRecOn generalizing pos wire with
  | ind l ih =>
    subst hlen
    rcases wire with _ | ⟨kind, _ | ⟨m, _ | ⟨mn, _ | ⟨high, _ | ⟨low, wire⟩⟩⟩⟩⟩
    · exact ⟨_, _, .short (by simp)⟩
    · exact ⟨_, _, .short (by simp)⟩
    · exact ⟨_, _, .short (by simp)⟩
    · exact ⟨_, _, .short (by simp)⟩
    · exact ⟨_, _, .short (by simp)⟩
    by_cases hfor : kind ≠ 22 ∨ m ≠ 3
    · exact ⟨_, _, .foreign hfor⟩
    obtain ⟨rfl, rfl⟩ : kind = 22 ∧ m = 3 := by simpa [not_or] using hfor
    set l := high.toNat * 256 + low.toNat with hlen
    by_cases hc : wire.length < l
    · exact ⟨_, _, .cut hc⟩
    have hbody : (wire.take l).length = l := length_take_of_le (Nat.not_lt.mp hc)
    obtain ⟨message, fault, hsup⟩ :=
      ih (wire.drop l).length (by simp; omega) (pos + 5 + (wire.take l).length) _ rfl
    rw [← take_append_drop l wire]
    exact ⟨_, _, .whole hbody hsup⟩

/-- A wire that is no handshake stays one, whatever follows. One that ends too soon asks for more
than it has; with less than that it asks for the same, and what it supplied stays. -/
theorem Supplies.append {pos : Nat} {wire message : Bytes} {fault : ParseError}
    (h : Supplies pos wire message fault) (later : Bytes) :
    fault = .declined ∧ Supplies pos (wire ++ later) message .declined ∨
      ∃ size, fault = .more size ∧ pos + wire.length < size ∧
        (pos + (wire ++ later).length < size → Supplies pos (wire ++ later) message (.more size)) ∧
        ∃ more fault', Supplies pos (wire ++ later) (message ++ more) fault' := by
  induction h with
  | @short pos wire hlen =>
    refine .inr ⟨_, rfl, by omega, fun hle => .short (by omega), ?_⟩
    exact exists_supplies pos (wire ++ later)
  | foreign hfor => exact .inl ⟨rfl, .foreign hfor⟩
  | @cut pos m high low wire hc =>
    simp only [cons_append, length_cons]
    refine .inr ⟨_, rfl, by omega, fun hle => .cut (by omega), exists_supplies _ _⟩
  | @whole pos m high low b wire message fault hbody _ ih =>
    simp only [cons_append, append_assoc, length_cons, length_append]
    rcases ih with ⟨rfl, hdecl⟩ | ⟨size, rfl, hle, hsm, more, fault', hmo⟩
    · exact .inl ⟨rfl, .whole hbody hdecl⟩
    · refine .inr ⟨size, rfl, by omega, fun hlen => .whole hbody (hsm ?_), more, fault',
        .whole hbody hmo⟩
      rw [length_append]
      omega

/-! ### Cursors and plain bytes -/

instance : FieldReader Bytes where
  left := List.length
  withLeft field n := field.take n
  byte
    | [] => .error .declined
    | b :: field => .ok (b, field)
  take field n :=
    if field.length < n then .error .declined else .ok (field.take n, field.drop n)

namespace Cursor

/-- The cursor stands in front of some bytes of the message: those left in its record, and what the
wire behind it supplies. -/
def Stands (c : Cursor) (message : Bytes) (fault : ParseError) : Prop :=
  ∃ before current wire later, c.wire = before ++ (current ++ wire) ∧ c.pos = before.length ∧
    c.stop = before.length + current.length ∧ message = current ++ later ∧
    Supplies c.stop wire later fault

variable {wire before : Bytes}

theorem stands_start {message : Bytes} {fault : ParseError} (h : Supplies 0 wire message fault) :
    (start wire).Stands message fault :=
  ⟨[], [], wire, message, rfl, rfl, rfl, rfl, h⟩

variable {c : Cursor} {message : Bytes} {fault : ParseError}

theorem record_of_ne (h : c.pos ≠ c.stop) : c.record = .ok c := by
  rw [record, if_neg h]

theorem drop_pos (hwire : c.wire = before ++ wire) (hp : c.pos = before.length) :
    c.wire.drop c.pos = wire := by
  rw [hwire, hp, drop_left]

theorem header_fits {kind major minor high low : UInt8}
    (hwire : c.wire = before ++ kind :: major :: minor :: high :: low :: wire)
    (hp : c.pos = before.length) : ¬ c.wire.length < c.pos + 5 := by
  rw [hwire, hp]
  simp

/-- In front of a whole record the cursor enters it. -/
theorem record_at_record {body : Bytes} {minor high low : UInt8}
    (hwire : c.wire = before ++ (22 :: 3 :: minor :: high :: low :: (body ++ wire)))
    (hp : c.pos = before.length) (hstop : c.pos = c.stop)
    (hbody : body.length = high.toNat * 256 + low.toNat) :
    ∃ entered : Cursor, c.record = entered.record ∧ entered.wire = c.wire ∧
      entered.pos = c.pos + 5 ∧ entered.stop = c.pos + 5 + body.length ∧
      entered.left = c.left := by
  have hlen : c.pos + 5 + body.length ≤ c.wire.length := by
    rw [hwire, hp]
    simp only [length_append, length_cons]
    omega
  refine ⟨⟨c.wire, c.pos + 5, c.pos + 5 + body.length, c.left, by omega, hlen⟩, ?_, rfl, rfl,
    rfl, rfl⟩
  rw [record, if_pos hstop, dif_neg (header_fits hwire hp), drop_pos hwire hp]
  simp only [← hbody, dif_neg (Nat.not_lt.mpr hlen)]
  simp

/-- The cursor finds the next byte of the message in whatever record it is; where there is none it
meets the fault. -/
theorem record_of_supplies (h : Supplies c.stop wire message fault)
    (hwire : c.wire = before ++ wire) (hp : c.pos = before.length) (hstop : c.pos = c.stop) :
    (message = [] → c.record = .error fault) ∧
      (message ≠ [] → ∃ c', c.record = .ok c' ∧ c'.Stands message fault ∧ c'.left = c.left) := by
  generalize hat : c.stop = pos at h
  induction h generalizing c before with
  | @short pos wire hlen =>
    refine ⟨fun _ => ?_, fun hne => absurd rfl hne⟩
    have hend : c.wire.length < c.pos + 5 := by
      rw [hwire, hp, length_append]
      omega
    rw [record, if_pos hstop, dif_pos hend, hstop, hat]
  | @foreign pos kind m mn high low wire hfor =>
    refine ⟨fun _ => ?_, fun hne => absurd rfl hne⟩
    rw [record, if_pos hstop, dif_neg (header_fits hwire hp), drop_pos hwire hp]
    exact if_pos hfor
  | @cut pos mn high low wire hc =>
    refine ⟨fun _ => ?_, fun hne => absurd rfl hne⟩
    have hbody : c.wire.length < c.pos + 5 + (high.toNat * 256 + low.toNat) := by
      rw [hwire, hp]
      simp only [length_append, length_cons]
      omega
    rw [record, dif_neg (header_fits hwire hp), drop_pos hwire hp, ← hat, ← hstop]
    simp [hbody]
  | @whole pos mn high low bd wire message fault hbody hsup ih =>
    obtain ⟨e, hrcd, hwire', hp', hstop', hlf⟩ := record_at_record hwire hp hstop hbody
    rw [hrcd, ← hlf]
    have hfrt : e.wire = (before ++ [22, 3, mn, high, low]) ++ (bd ++ wire) := by
      rw [hwire', hwire]
      simp
    have hfrontPos : e.pos = (before ++ [22, 3, mn, high, low]).length := by
      rw [hp', hp]
      simp
    cases bd with
    | nil =>
      refine ih hfrt hfrontPos (hp'.trans hstop'.symm) ?_
      rw [hstop', hstop, hat]
    | cons b bd =>
      refine ⟨fun hni => absurd hni (by simp), fun _ => ⟨e, record_of_ne ?_, ?_, rfl⟩⟩
      · rw [hp', hstop', length_cons]
        omega
      · refine ⟨_, _, _, _, hfrt, hfrontPos, ?_, rfl, ?_⟩
        · rw [hstop', ← hfrontPos, hp']
        · rw [hstop', hstop, hat]
          exact hsup

theorem record_of_stands (h : c.Stands message fault) :
    (message = [] → c.record = .error fault) ∧
      (message ≠ [] → ∃ c', c.record = .ok c' ∧ c'.Stands message fault ∧ c'.left = c.left) := by
  obtain ⟨before, cr, w, l, hwire, hp, hstop, rfl, hsup⟩ := h
  cases cr with
  | nil => exact record_of_supplies hsup hwire hp (hp.trans hstop.symm)
  | cons b cr =>
    refine ⟨fun hni => absurd hni (by simp), fun _ => ⟨c, record_of_ne ?_, ?_, rfl⟩⟩
    · rw [hp, hstop, length_cons]
      omega
    · exact ⟨_, _, _, _, hwire, hp, hstop, rfl, hsup⟩

theorem Stands.advance (h : c.Stands message fault) {amount : Nat}
    (hamount : amount ≤ c.stop - c.pos) :
    (c.advance amount hamount).Stands (message.drop amount) fault ∧ amount ≤ message.length := by
  obtain ⟨before, cr, w, l, hwire, hp, hstop, rfl, hsup⟩ := h
  have hcur : amount ≤ cr.length := by omega
  refine ⟨⟨before ++ cr.take amount, cr.drop amount, w, l, ?_, ?_, ?_, ?_, hsup⟩, ?_⟩
  · rw [append_assoc before, ← append_assoc (cr.take amount), take_append_drop]
    exact hwire
  · simp [Cursor.advance, hp, hcur]
  · simp [Cursor.advance, hstop]
    omega
  · rw [drop_append_of_le_length hcur]
  · rw [length_append]
    omega

theorem Stands.get {b : UInt8} (h : c.Stands (b :: message) fault) (hlt : c.pos < c.stop)
    (hin : c.pos < c.wire.length) : c.wire.get ⟨c.pos, hin⟩ = b := by
  obtain ⟨before, cr, wire, l, hwire, hp, hstop, hmsg, -⟩ := h
  cases cr with
  | nil =>
    rw [hp, hstop] at hlt
    simp at hlt
  | cons a cr =>
    obtain ⟨rfl, -⟩ := List.cons.inj hmsg
    have hget : c.wire[c.pos]? = some b := by
      rw [hwire, hp]
      simp
    exact (List.getElem?_eq_some_iff.mp hget).2

theorem byte_of_fault (h : c.Stands [] fault) (hlf : c.left ≠ 0) : c.byte = .error fault := by
  have hrcd := (record_of_stands h).1 rfl
  rw [byte, if_neg hlf]
  split
  · next e he =>
    cases hrcd.symm.trans he
    rfl
  · next he => cases hrcd.symm.trans he

theorem byte_of_stands {b : UInt8} (h : c.Stands (b :: message) fault) (hlf : c.left ≠ 0) :
    ∃ c', c.byte = .ok (b, c') ∧ c'.Stands message fault ∧ c'.left = c.left - 1 := by
  obtain ⟨e, hentered, hstd, hsm⟩ := (record_of_stands h).2 (by simp)
  rw [byte, if_neg hlf]
  split
  · next he => cases hentered.symm.trans he
  · next c' he =>
    cases hentered.symm.trans he
    have hlt := pos_lt_stop_of_record he
    refine ⟨_, congrArg Except.ok (Prod.ext (hstd.get hlt _) rfl),
      (hstd.advance (Nat.sub_pos_of_lt hlt)).1, ?_⟩
    rw [← hsm]
    rfl

theorem skip_of_stands {n : Nat} (h : c.Stands message fault) :
    (message.length < n → c.skip n = .error fault) ∧
      (n ≤ message.length → ∃ c', c.skip n = .ok c' ∧ c'.Stands (message.drop n) fault ∧
        c'.left = c.left - n) := by
  fun_induction skip c n generalizing message with
  | case1 c => exact ⟨fun hlt => absurd hlt (Nat.not_lt_zero _), fun _ => ⟨c, rfl, h, rfl⟩⟩
  | case2 c n hn e he =>
    obtain ⟨hni, hcn⟩ := record_of_stands h
    cases message with
    | nil => exact ⟨fun _ => (he.symm.trans (hni rfl)), fun hle => absurd (Nat.le_zero.mp hle) hn⟩
    | cons b message =>
      obtain ⟨c', hc', -⟩ := hcn (by simp)
      cases hc'.symm.trans he
  | case3 c n hn en he hlt ih =>
    obtain ⟨hni, hcn⟩ := record_of_stands h
    cases message with
    | nil => cases (hni rfl).symm.trans he
    | cons b message =>
      obtain ⟨c', hc', hstd, hlf⟩ := hcn (by simp)
      cases hc'.symm.trans he
      -- what is skipped inside this record, and what is left to skip behind it
      set a := min n (en.stop - en.pos) with hamount
      obtain ⟨hadvanced, hle⟩ := hstd.advance (Nat.min_le_right n (en.stop - en.pos))
      have hsma : a ≤ n := Nat.min_le_left _ _
      obtain ⟨hsh, hlg⟩ := ih hadvanced
      rw [length_drop] at hsh hlg
      refine ⟨fun hlt => hsh (by omega), fun hge => ?_⟩
      obtain ⟨c', hsk, hdr, hlf'⟩ := hlg (by omega)
      refine ⟨c', hsk, ?_, ?_⟩
      · rwa [drop_drop, Nat.add_sub_cancel' hsma] at hdr
      · rw [hlf']
        change en.left - a - (n - a) = c.left - n
        omega

def Holds (c : Cursor) (field : Bytes) : Prop :=
  c.left = field.length ∧ ∃ later fault, c.Stands (field ++ later) fault

theorem take_of_stands {n : Nat} (h : c.Stands message fault) (hlf : n ≤ c.left) :
    (message.length < n → c.take n = .error fault) ∧
      (n ≤ message.length → ∃ field c', c.take n = .ok (field, c') ∧
        field.Holds (message.take n) ∧ c'.Stands (message.drop n) fault ∧
        c'.left = c.left - n) := by
  obtain ⟨hsh, hlg⟩ := skip_of_stands (n := n) h
  rw [take, if_neg (Nat.not_lt.mpr hlf)]
  refine ⟨fun hlt => ?_, fun hle => ?_⟩
  · rw [hsh hlt]
    rfl
  · obtain ⟨c', hsk, hstd, hlf'⟩ := hlg hle
    refine ⟨{ c with left := n }, c', ?_, ⟨?_, ?_⟩, hstd, hlf'⟩
    · rw [hsk]
      rfl
    · exact (length_take_of_le hle).symm
    · exact ⟨message.drop n, fault, by rwa [take_append_drop]⟩

/-- A cursor over a field that is all there reads what its bytes read as. -/
theorem holds_simulates : Simulates Holds where
  left_eq h := h.1
  byte := by
    rintro c (_ | ⟨b, field⟩) ⟨hlf, l, f, hstd⟩
    · have hdecl : c.byte = .error .declined := if_pos hlf
      exact .of_error hdecl rfl ⟨rfl, rfl⟩
    · obtain ⟨c', hby, hstd', hlf'⟩ := byte_of_stands hstd (by simp [hlf])
      refine .of_ok hby rfl ⟨rfl, ?_, l, f, hstd'⟩
      rw [hlf', hlf]
      rfl
  take := by
    rintro c field ⟨hlf, l, f, hstd⟩ n
    by_cases hn : field.length < n
    · have hdecl : c.take n = .error .declined := if_pos (hlf ▸ hn)
      exact .of_error hdecl (if_pos hn) ⟨rfl, rfl⟩
    · have hn' : n ≤ field.length := Nat.not_lt.mp hn
      have hle : n ≤ (field ++ l).length := by
        rw [length_append]
        omega
      obtain ⟨s, c', htk, hsp, hstd', hlf'⟩ := (take_of_stands hstd (hlf ▸ hn')).2 hle
      rw [take_append_of_le_length hn'] at hsp
      rw [drop_append_of_le_length hn'] at hstd'
      refine .of_ok htk (if_neg hn) ⟨hsp, ?_, l, f, hstd'⟩
      rw [hlf', hlf, length_drop]

end Cursor

/-! ### Verdicts -/

/-- The next byte of a message that ends with a fault. -/
def next (fault : ParseError) : Bytes → Except ParseError (UInt8 × Bytes)
  | [] => .error fault
  | b :: message => .ok (b, message)

def nextWord (fault : ParseError) (message : Bytes) : Except ParseError (Nat × Bytes) := do
  let (high, message) ← next fault message
  let (low, message) ← next fault message
  return (high.toNat * 256 + low.toNat, message)

/-- The hello in a message: what stands behind its type and length, in that length. -/
def helloOf (fault : ParseError) (message : Bytes) : Except ParseError Bytes := do
  let (kind, message) ← next fault message
  if kind ≠ 1 then .error .declined
  else
    let (high, message) ← next fault message
    let (low, message) ← nextWord fault message
    let length := high.toNat * 65536 + low
    if message.length < length then .error fault else .ok (message.take length)

section

variable {c : Cursor} {wire message : Bytes} {fault : ParseError}

theorem Cursor.Stands.next (h : c.Stands message fault) {n : Nat} (hlf : n + 1 ≤ c.left) :
    Alike Eq (fun a b => a.1 = b.1 ∧ a.2.Stands b.2 fault ∧ n ≤ a.2.left) (byte c)
      (next fault message) := by
  cases message with
  | nil => exact .of_error (byte_of_fault h (by omega)) rfl rfl
  | cons b message =>
    obtain ⟨c', hby, hstd, hlf'⟩ := byte_of_stands h (by omega)
    exact .of_ok hby rfl ⟨rfl, hstd, by dsimp only; omega⟩

theorem Cursor.Stands.nextWord (h : c.Stands message fault) (hlf : 2 ≤ c.left) :
    Alike Eq (fun a b => a.1 = b.1 ∧ a.2.Stands b.2 fault) (word c) (nextWord fault message) := by
  refine (h.next hlf).bind ?_
  rintro ⟨high, c⟩ ⟨_, message⟩ ⟨rfl, hstd, hlf⟩
  refine (hstd.next (n := 0) hlf).bind ?_
  rintro ⟨low, c⟩ ⟨_, message⟩ ⟨rfl, hstd, -⟩
  exact .ok ⟨rfl, hstd⟩

/-- The header of a message is read across records like the rest. -/
theorem alike_readHandshake (h : Supplies 0 wire message fault) :
    Alike Eq Cursor.Holds (readHandshake (Cursor.start wire)) (helloOf fault message) := by
  have hlf : 3 + 1 ≤ (Cursor.start wire).left := show 4 ≤ u64Max by decide
  refine ((Cursor.stands_start h).next hlf).bind ?_
  rintro ⟨kind, c⟩ ⟨_, message⟩ ⟨rfl, hstd, hlf⟩
  refine .ite Iff.rfl (.error rfl) ((hstd.next hlf).bind ?_)
  rintro ⟨high, c⟩ ⟨_, message⟩ ⟨rfl, hstd, hlf⟩
  refine (hstd.nextWord hlf).bind ?_
  rintro ⟨low, c⟩ ⟨_, message⟩ ⟨rfl, hstd⟩
  -- the whole hello must be there before anything of it is looked at
  have htk := Cursor.take_of_stands (c := withLeft c (high.toNat * 65536 + low)) hstd
    (Nat.le_refl (high.toNat * 65536 + low))
  dsimp only
  split
  · next hlt => exact .of_error (congrArg (· >>= _) (htk.1 hlt)) rfl rfl
  · next hle =>
    obtain ⟨hello, c', htk, hhl, -⟩ := htk.2 (Nat.not_lt.mp hle)
    exact .of_ok (congrArg (· >>= _) htk) rfl hhl

def Judges : Classification → Except ParseError Bytes → Prop
  | .needMore size, .error (.more size') => size = size'
  | .notTls, .error .declined => True
  | .notTls, .ok hello => readBody hello = .error .declined
  | .tls a, .ok hello => ∃ b, readBody hello = .ok b ∧
      (∀ name, a.matchesSni name = b.matchesSni name) ∧
      ∀ protocol, a.offersAlpn protocol = b.offersAlpn protocol
  | _, _ => False

theorem judges_more_iff {verdict : Classification} {size : Nat} :
    Judges verdict (.error (.more size)) ↔ verdict = .needMore size := by
  cases verdict <;> simp [Judges]

theorem Judges.of_needMore {size : Nat} {hello : Except ParseError Bytes}
    (h : Judges (.needMore size) hello) : hello = .error (.more size) := by
  rcases hello with (size' | _) | hello
  · cases h
    rfl
  · exact h.elim
  · exact h.elim

/-- The verdict over a wire is that over the message it supplies. -/
theorem judges_classify (h : Supplies 0 wire message fault)
    (hhead : wire.head?.any (· ≠ 22) = false) : Judges (classify wire) (helloOf fault message) := by
  rw [classify, hhead]
  rcases (alike_readHandshake h).cases_on with ⟨e, _, hc, hm, rfl⟩ | ⟨c, hello, hc, hm, hhl⟩
  · have hps : parse (Cursor.start wire) = .error e := by
      rw [parse, hc]
      rfl
    rw [hps, hm]
    cases e with
    | more size => exact rfl
    | declined => trivial
  · have hps : parse (Cursor.start wire) = readBody c := by
      rw [parse, hc]
      rfl
    rw [hps, hm]
    rcases (Cursor.holds_simulates.readBody hhl).cases_on with
      ⟨_, _, hc, hm, rfl, rfl⟩ | ⟨a, b, hc, hm, hsame⟩
    · rw [hc]
      exact hm
    · rw [hc]
      exact ⟨b, hm, Cursor.holds_simulates.matchesSni_eq hsame,
        Cursor.holds_simulates.offersAlpn_eq hsame⟩

end

theorem helloOf_cons (fault : ParseError) (high middle low : UInt8) (message : Bytes) :
    helloOf fault (1 :: high :: middle :: low :: message) =
      if message.length < high.toNat * 65536 + (middle.toNat * 256 + low.toNat) then .error fault
      else .ok (message.take (high.toNat * 65536 + (middle.toNat * 256 + low.toNat))) := by
  have hbind {β γ : Type} (a : β) (f : β → Except ParseError γ) : (Except.ok a >>= f) = f a := rfl
  have hword : nextWord fault (middle :: low :: message) =
      .ok (middle.toNat * 256 + low.toNat, message) := rfl
  rw [helloOf, next, hbind]
  dsimp only
  rw [if_neg (by simp), next, hbind]
  rw [hword, hbind]

/-- A message that is long enough, or has another type, is read the same however it goes on. -/
theorem helloOf_append (fault fault' : ParseError) (message more : Bytes) :
    helloOf fault message = .error fault ∨
      helloOf fault' (message ++ more) = helloOf fault message ∧
        ∀ size, helloOf fault message ≠ .error (.more size) := by
  rcases message with _ | ⟨kind, message⟩
  · exact .inl rfl
  by_cases hk : kind ≠ 1
  · have ho (fault : ParseError) (rest : Bytes) :
        helloOf fault (kind :: rest) = .error .declined := if_pos hk
    rw [cons_append, ho, ho]
    exact .inr ⟨rfl, by simp⟩
  obtain rfl : kind = 1 := not_not.mp hk
  rcases message with _ | ⟨high, _ | ⟨m, _ | ⟨low, message⟩⟩⟩
  · exact .inl rfl
  · exact .inl rfl
  · exact .inl rfl
  simp only [cons_append, helloOf_cons, length_append]
  split
  · exact .inl rfl
  · next hle =>
    rw [if_neg (by omega), take_append_of_le_length (Nat.not_lt.mp hle)]
    exact .inr ⟨rfl, by simp⟩

/-- A handshake record of a version whose major number is three. -/
structure Record where
  minor : UInt8
  body : Bytes
  legal : body.length < 65536

def Record.encode (r : Record) : Bytes :=
  22 :: 3 :: r.minor :: (r.body.length / 256).toUInt8 :: (r.body.length % 256).toUInt8 :: r.body

def encode (records : List Record) : Bytes := records.flatMap Record.encode

def payload (records : List Record) : Bytes := records.flatMap Record.body

theorem Record.headerLength (r : Record) :
    (r.body.length / 256).toUInt8.toNat * 256 + (r.body.length % 256).toUInt8.toNat =
      r.body.length := by
  have := r.legal
  simp only [Nat.toUInt8_eq, UInt8.toNat_ofNat']
  omega

theorem supplies_encode (pos : Nat) (records : List Record) :
    Supplies pos (encode records) (payload records)
      (.more (pos + (encode records).length + 5)) := by
  induction records generalizing pos with
  | nil => exact .short (by simp [encode])
  | cons r records ih =>
    have hlen : pos + (encode (r :: records)).length + 5 =
        pos + 5 + r.body.length + (encode records).length + 5 := by
      simp only [encode, flatMap_cons, Record.encode, length_append, length_cons]
      omega
    rw [hlen]
    exact .whole r.headerLength.symm (ih _)

theorem judges_encode (records : List Record) :
    ∃ size, Judges (classify (encode records)) (helloOf (.more size) (payload records)) := by
  refine ⟨_, judges_classify (supplies_encode 0 records) ?_⟩
  cases records <;> simp [encode, Record.encode]

/-- Both verdicts ask for more input, both decline, or both accept the message, with the same
answer about every name and every protocol. -/
def SameVerdict : Classification → Classification → Prop
  | .needMore _, .needMore _ => True
  | .notTls, .notTls => True
  | .tls a, .tls b => (∀ name, a.matchesSni name = b.matchesSni name) ∧
      ∀ protocol, a.offersAlpn protocol = b.offersAlpn protocol
  | _, _ => False

/-- Verdicts over the same hello are the same. -/
theorem Judges.same {verdict verdict' : Classification} {hello : Except ParseError Bytes}
    (h : Judges verdict hello) (h' : Judges verdict' hello) : SameVerdict verdict verdict' := by
  rcases hello with (size | _) | hello
  · cases verdict <;> cases verdict' <;> trivial
  · cases verdict <;> cases verdict' <;> trivial
  · cases verdict <;> cases verdict' <;> try trivial
    · obtain ⟨b, hb, -⟩ := h'
      cases hb.symm.trans h
    · obtain ⟨b, hb, -⟩ := h
      cases hb.symm.trans h'
    · obtain ⟨b, hb, hsni, halpn⟩ := h
      obtain ⟨b', hb', hsni', halpn'⟩ := h'
      cases hb.symm.trans hb'
      exact ⟨fun name => (hsni name).trans (hsni' name).symm,
        fun p => (halpn p).trans (halpn' p).symm⟩

/-- However a message is cut into records, the verdict is the same, and so are the answers about
names and protocols. -/
theorem classify_eq_of_payload_eq {records records' : List Record}
    (h : payload records = payload records') :
    SameVerdict (classify (encode records)) (classify (encode records')) := by
  obtain ⟨size, hj⟩ := judges_encode records
  obtain ⟨size', hj'⟩ := judges_encode records'
  rw [← h] at hj'
  rcases helloOf_append (.more size) (.more size') (payload records) [] with hmsg | ⟨hsm, -⟩
  · rcases helloOf_append (.more size') (.more size) (payload records) [] with
      hmsg' | ⟨hsm, hn⟩
    · rw [hmsg] at hj
      rw [hmsg'] at hj'
      rw [judges_more_iff.mp hj, judges_more_iff.mp hj']
      trivial
    · rw [append_nil] at hsm
      exact absurd (hsm.symm.trans hmsg) (hn size)
  · rw [append_nil] at hsm
    rw [hsm] at hj'
    exact hj.same hj'

def sampleHello : Bytes :=
  [1, 0, 0, 53, 3, 3] ++ List.replicate 32 7 ++ [0, 0, 2, 0x13, 1, 1, 0, 0, 10] ++
    [0, 0, 0, 6, 0, 4, 0, 0, 1, 0x61]

theorem classify_eq_sampleHello :
    payload [⟨1, sampleHello, by decide⟩] =
        payload [⟨3, sampleHello.take 2, by decide⟩, ⟨0, [], by decide⟩,
          ⟨1, sampleHello.drop 2, by decide⟩] ∧
      SameVerdict (classify (encode [⟨1, sampleHello, by decide⟩]))
        (classify (encode [⟨3, sampleHello.take 2, by decide⟩, ⟨0, [], by decide⟩,
          ⟨1, sampleHello.drop 2, by decide⟩])) :=
  ⟨by decide, classify_eq_of_payload_eq (by decide)⟩

end Hello

end Pingclair
