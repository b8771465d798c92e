import Pingclair.Http.Substitution

/-!
# Text from the request stays data

A `map` reads captured groups again for placeholders, and a header replacement and a rewrite read
values again for capture references. Whatever has a place for such a text is filled in wrongly for
some request; it takes a brace or a dollar sign.
-/

namespace Pingclair.Substitution

open ByteText Templates List Option

variable {text : Bytes} {atoms : List Atom}

/-- A `map` with one row, for a regular expression. -/
def MapPlan.row (destination output : Bytes) (regex : Bytes → Option Groups) : MapPlan :=
  ⟨[], [destination], [⟨none, some regex, [some output]⟩], []⟩

namespace Smuggled

def whole (text : Bytes) : Groups := fun ref =>
  if ref = .number 0 ∨ ref = .number 1 then text else []

def plan : MapPlan where
  source := ascii "\x7bheader.X-User\x7d"
  destinations := [ascii "user"]
  mappings := [⟨none, some fun text => some (whole text), [some (ascii "$1")]⟩]
  defaults := []

def entry : HeaderReplacement where
  field := ascii "X-Token"
  searchRegexp := ascii "(.*)"
  replace := ascii "\x7bheader.X-User\x7d"

def matching (_pattern : Bytes) : Option Regex := some fun text => [⟨0, text.length, whole text⟩]

end Smuggled

end Pingclair.Substitution
