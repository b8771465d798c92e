import Pingclair.Path.FileGlob

/-!
# Request data in file patterns

A pattern of the `file` matcher names placeholders, which stand for what the request says. Their
values are written with every metacharacter in a set of its own, so that a glob takes them for
themselves. That holds outside a set: a value that stands within one can make a range of it.
-/

namespace Pingclair.FileGlob

open ByteText Utf8

variable {its : List Item} {list : List (Option Char)}

theorem Spells.append {cs cs' : List Char} {its' : List Item} (h : Spells cs its)
    (h' : Spells cs' its') : Spells (cs ++ cs') (its ++ its') := by
  induction h with
  | nil => exact h'
  | star _ ih => exact ih.star
  | one _ ih => exact ih.one
  | literal c hstar hone hset _ ih => exact ih.literal c hstar hone hset
  | inside f ms hf hms _ ih =>
    simpa using ih.inside f ms hf hms
  | outside f ms hms _ ih => simpa using ih.outside f ms hms

end Pingclair.FileGlob
