import Pingclair.Lib.AsciiCase

/-!
# Header maps

Header fields live in the map of another library. `HttpLib` is what the server relies on: a
field name may be written in any case, a name has any number of values in the order they
were added, inserting replaces all of them, and text that is no header name or value is
refused.
-/

namespace Pingclair

open ByteText AsciiCase

structure HttpLib where
  HeaderMap : Type
  getAll : HeaderMap → Bytes → List Bytes
  /-- Whether a name and a value are header text. -/
  accepts : Bytes → Bytes → Bool
  insert : HeaderMap → Bytes → Bytes → HeaderMap
  append : HeaderMap → Bytes → Bytes → HeaderMap
  remove : HeaderMap → Bytes → HeaderMap
  toStr : Bytes → Option Bytes
  accepts_of_mem : ∀ {m name value}, value ∈ getAll m name → accepts name value = true
  getAll_insert : ∀ {name value}, accepts name value = true → ∀ m other,
    getAll (insert m name value) other =
      if eqIgnoreCase other name then [value] else getAll m other
  getAll_append : ∀ {name value}, accepts name value = true → ∀ m other,
    getAll (append m name value) other =
      if eqIgnoreCase other name then getAll m other ++ [value] else getAll m other
  getAll_remove : ∀ m name other,
    getAll (remove m name) other = if eqIgnoreCase other name then [] else getAll m other
  getAll_congr : ∀ {name other}, eqIgnoreCase name other = true → ∀ m,
    getAll m name = getAll m other
  toStr_eq : ∀ {value text}, toStr value = some text → text = value ∧ ∀ b ∈ text, b < 0x80

namespace HttpLib

variable (http : HttpLib)

def get (headers : http.HeaderMap) (name : Bytes) : Option Bytes := (http.getAll headers name).head?

/-- Replaces the values of a field; `none` when the name or the value is refused. -/
def insertHeader (headers : http.HeaderMap) (name value : Bytes) : Option http.HeaderMap :=
  if http.accepts name value then some (http.insert headers name value) else none

def appendHeader (headers : http.HeaderMap) (name value : Bytes) : Option http.HeaderMap :=
  if http.accepts name value then some (http.append headers name value) else none

end HttpLib

def isNameByte (b : UInt8) : Bool :=
  0x61 ≤ b && b ≤ 0x7A || 0x30 ≤ b && b ≤ 0x39 || b ∈ ascii "!#$%&'*+-.^_|~" || b == 0x60

def isValueByte (b : UInt8) : Bool := b == 0x09 || 0x20 ≤ b && b != 0x7F

structure FieldLine where
  name : Bytes
  value : Bytes
  wellFormed : name ≠ [] ∧ name.all isNameByte ∧ value.all isValueByte

theorem isUpper_of_isNameByte {b : UInt8} (h : isNameByte b = true) : isUpper b = false := by
  have hmarks : ∀ c ∈ ascii "!#$%&'*+-.^_|~", isUpper c = false := by decide +kernel
  by_cases hmk : b ∈ ascii "!#$%&'*+-.^_|~"
  · exact hmarks b hmk
  · simp only [isNameByte, hmk, decide_false, Bool.or_false] at h
    unfold isUpper
    grind

theorem fold_name (line : FieldLine) : fold line.name = line.name := by
  apply fold_of_no_upper
  rw [List.any_eq_false]
  intro b hb
  rw [isUpper_of_isNameByte (List.all_eq_true.mp line.wellFormed.2.1 b hb)]
  exact Bool.false_ne_true

namespace FieldLine

def accepts (name value : Bytes) : Bool :=
  fold name ≠ [] && (fold name).all isNameByte && value.all isValueByte

theorem accepts_iff {name value : Bytes} : accepts name value = true ↔
    fold name ≠ [] ∧ (fold name).all isNameByte ∧ value.all isValueByte := by
  simp [accepts, and_assoc]

def make (name value : Bytes) : Option FieldLine :=
  if h : accepts name value = true then some ⟨fold name, value, accepts_iff.mp h⟩ else none

end FieldLine

namespace FieldLines

def getAll (lines : List FieldLine) (name : Bytes) : List Bytes :=
  (lines.filter fun line => line.name == fold name).map FieldLine.value

def remove (lines : List FieldLine) (name : Bytes) : List FieldLine :=
  lines.filter fun line => line.name != fold name

def append (lines : List FieldLine) (name value : Bytes) : List FieldLine :=
  lines ++ (FieldLine.make name value).toList

theorem getAll_append {name value : Bytes} (h : FieldLine.accepts name value = true)
    (lines : List FieldLine) (other : Bytes) :
    getAll (append lines name value) other =
      if eqIgnoreCase other name then getAll lines other ++ [value] else getAll lines other := by
  rw [append, FieldLine.make, dif_pos h, getAll, List.filter_append, List.map_append, ← getAll]
  by_cases h : fold other = fold name
  · simp [h]
  · simp [h, Ne.symm h]

theorem getAll_remove (lines : List FieldLine) (name other : Bytes) :
    getAll (remove lines name) other =
      if eqIgnoreCase other name then [] else getAll lines other := by
  rw [getAll, remove, List.filter_filter]
  by_cases h : fold other = fold name
  · simp [h]
  · rw [if_neg (by simpa using h)]
    congr 1
    apply List.filter_congr
    intro line _
    by_cases hli : line.name = fold other
    · simp [hli, h]
    · simp [hli]

theorem accepts_of_mem {lines : List FieldLine} {name value : Bytes}
    (h : value ∈ getAll lines name) : FieldLine.accepts name value = true := by
  obtain ⟨line, hli, rfl⟩ := List.mem_map.mp h
  have hn : line.name = fold name := by simpa using (List.mem_filter.mp hli).2
  rw [FieldLine.accepts_iff, ← hn]
  exact line.wellFormed

def toStr (value : Bytes) : Option Bytes :=
  if value.all fun b => b == 0x09 || 0x20 ≤ b && b < 0x7F then some value else none

theorem toStr_eq {value text : Bytes} (h : toStr value = some text) :
    text = value ∧ ∀ b ∈ text, b < 0x80 := by
  rw [toStr] at h
  split at h
  · next ha =>
    obtain rfl := Option.some.inj h
    refine ⟨rfl, fun b hb => ?_⟩
    grind
  · simp at h

def http : HttpLib where
  HeaderMap := List FieldLine
  getAll := getAll
  accepts := FieldLine.accepts
  insert lines name value := append (remove lines name) name value
  append := append
  remove := remove
  toStr := toStr
  accepts_of_mem := accepts_of_mem
  getAll_insert := by
    intro name value h lines other
    rw [getAll_append h, getAll_remove]
    split <;> rfl
  getAll_append := getAll_append
  getAll_remove := getAll_remove
  getAll_congr := by
    intro name other h lines
    rw [getAll, getAll, eq_of_beq h]
  toStr_eq := toStr_eq

def ofPairs (pairs : List (Bytes × Bytes)) : List FieldLine :=
  pairs.filterMap fun (name, value) => FieldLine.make name value

end FieldLines

structure HttpMaps extends HttpLib where
  empty : HeaderMap
  getAll_empty : ∀ name, getAll empty name = []

def FieldLines.maps : HttpMaps where
  toHttpLib := FieldLines.http
  empty := []
  getAll_empty _ := rfl

end Pingclair
