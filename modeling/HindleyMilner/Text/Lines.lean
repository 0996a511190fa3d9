/-!
Line ends. A carriage return ends a line, alone or before a line feed; both become a line feed.
-/

namespace HindleyMilner.Text

/-- `done` holds the characters before, last first. -/
def unifyLineEndsFrom (done : List Char) : List Char → List Char
  | [] => done.reverse
  | '\r' :: '\n' :: rest => unifyLineEndsFrom ('\n' :: done) rest
  | '\r' :: rest => unifyLineEndsFrom ('\n' :: done) rest
  | c :: rest => unifyLineEndsFrom (c :: done) rest

def unifyLineEnds (cs : List Char) : List Char :=
  unifyLineEndsFrom [] cs

end HindleyMilner.Text
