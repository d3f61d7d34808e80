/-!
What may stand between two data: blanks, comments to the end of the line and block comments. A
line comment that meets a carriage return without a line feed, and a block comment that is not
closed, are no comments and stay unread.
-/
namespace HygienicScheme.Reader

def isSpace (c : Char) : Bool := c == ' ' || c == '\t' || c == '\r' || c == '\n'

def afterLine? : List Char → Option (List Char)
  | [] => some []
  | '\r' :: '\n' :: cs => some ('\r' :: '\n' :: cs)
  | '\r' :: _ => none
  | '\n' :: cs => some ('\n' :: cs)
  | _ :: cs => afterLine? cs

/-- What follows the mark that closes a block comment. -/
def afterBlock? : List Char → Option (List Char)
  | [] => none
  | '|' :: '#' :: cs => some cs
  | _ :: cs => afterBlock? cs

theorem afterLine?_length {cs rest : List Char} (h : afterLine? cs = some rest) :
    rest.length ≤ cs.length := by
  fun_induction afterLine? cs generalizing rest with
  | case1 => simp_all
  | case2 cs => simp_all
  | case3 => simp at h
  | case4 cs => simp_all
  | case5 c cs _ _ _ ih => have := ih h; simp; omega

theorem afterBlock?_length {cs rest : List Char} (h : afterBlock? cs = some rest) :
    rest.length ≤ cs.length := by
  fun_induction afterBlock? cs generalizing rest with
  | case1 => simp at h
  | case2 cs => simp_all; omega
  | case3 c cs _ ih => have := ih h; simp; omega

def skipAtmosphere (cs : List Char) : List Char :=
  match cs with
  | [] => []
  | ';' :: rest =>
    match _h : afterLine? rest with
    | some rest => skipAtmosphere rest
    | none => cs
  | '#' :: '|' :: rest =>
    match _h : afterBlock? rest with
    | some rest => skipAtmosphere rest
    | none => cs
  | c :: rest => if isSpace c then skipAtmosphere rest else cs
termination_by cs.length
decreasing_by
  · have := afterLine?_length _h; simp; omega
  · have := afterBlock?_length _h; simp; omega
  · simp

theorem skipAtmosphere_length (cs : List Char) : (skipAtmosphere cs).length ≤ cs.length := by
  fun_induction skipAtmosphere cs with
  | case1 => simp
  | case2 rest rest' h ih => have := afterLine?_length h; simp; omega
  | case3 => simp
  | case4 rest rest' h ih => have := afterBlock?_length h; simp; omega
  | case5 => simp
  | case6 c rest _ _ _ ih => simp; omega
  | case7 => simp

end HygienicScheme.Reader
