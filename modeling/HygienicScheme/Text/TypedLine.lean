import HygienicScheme.Text.Cluster

/-!
Lines as they are typed. A backspace takes back the cluster before it, or nothing if none is left.
The size of a cluster is kept in one byte: of a cluster of 256 bytes or more only its size modulo
256 is taken back, and where that would cut a character the line is lost.
-/
namespace HygienicScheme.Text

structure TypedLine where
  text : List Char
  sizes : List UInt8

def byteSize (cs : List Char) : Nat := cs.foldl (fun n c => n + c.utf8Size) 0

def takeBack : Nat → List Char → Option (List Char)
  | 0, cs => some cs
  | _ + 1, [] => none
  | n + 1, c :: cs => if c.utf8Size ≤ n + 1 then takeBack (n + 1 - c.utf8Size) cs else none

def TypedLine.enter (line : TypedLine) (cluster : List Char) : Option TypedLine :=
  if cluster = ['\x08'] then
    match line.sizes with
    | [] => some line
    | n :: sizes => (takeBack n.toNat line.text).map (⟨·, sizes⟩)
  else some ⟨cluster.reverse ++ line.text, (byteSize cluster).toUInt8 :: line.sizes⟩

def typedLine? (cs : List Char) : Option (List Char) :=
  ((clusters cs).foldlM TypedLine.enter ⟨[], []⟩).map (·.text.reverse)

example : typedLine? ['a', '\x08', '\x08', 'b'] = some ['b'] := by decide +kernel

end HygienicScheme.Text
