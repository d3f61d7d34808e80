import HygienicScheme.Reader.Progress

/-!
The grammar of data over the tokens. A datum stands at a depth, the number of lists, vectors and
abbreviations around it, and none may stand at `maxDepth` or deeper; a datum comment reads and
drops a datum at its own depth. Where an item is expected and no datum begins, the fault is laid
at the start of the outermost construct around it, or of the innermost vector.
-/
namespace HygienicScheme.Reader

def Fault.within (f : Fault) (kind : FaultKind) (start : List Char) : Fault :=
  if f.kind = .noDatum then ⟨kind, start⟩ else f

def isLoneDot (c : Char) (rest : List Char) : Bool :=
  c == '.' && !(rest.head?.map isAtomChar).getD false

def closeTail (close : Char) (cs : List Char) : Except Fault (Rest cs) :=
  match cs with
  | [] => .error ⟨.endOfInput, []⟩
  | c :: rest =>
    if c == close then .ok ⟨rest, by simp⟩ else .error ⟨.unexpectedCharacter, c :: rest⟩

def Rest.weaken {small large : List Char} (h : small.length ≤ large.length) (r : Rest small) :
    Rest large :=
  ⟨r.1, Nat.lt_of_lt_of_le r.2 h⟩

mutual

def readDatum (depth : Nat) (cs : List Char) : Except Fault (Datum × Rest cs) :=
  if maxDepth ≤ depth then .error ⟨.tooDeep, cs⟩ else
  match h : scan cs with
  | .error f => .error f
  | .ok (.constant d, rest) => .ok (d, ⟨rest, scan_progress h⟩)
  | .ok (.list close, rest) =>
    have hr := scan_progress h
    match readItems close (depth + 1) [] rest with
    | .error f => .error (f.within .noDatum cs)
    | .ok (items, tail, rest) => .ok (.listWithTail items tail, rest.weaken (by omega))
  | .ok (.vector, rest) =>
    have hr := scan_progress h
    match readItems ')' (depth + 1) [] rest with
    | .error f => .error (f.within .badToken cs)
    | .ok (items, .null, rest) => .ok (.vector items, rest.weaken (by omega))
    | .ok _ => .error ⟨.unexpectedCharacter, cs⟩
  | .ok (.abbreviation keyword, rest) =>
    have hr := scan_progress h
    have hs := skipAtmosphere_length rest
    match readDatum (depth + 1) (skipAtmosphere rest) with
    | .error f => .error (f.within .noDatum cs)
    | .ok (d, rest) => .ok (.list [.name keyword, d], rest.weaken (by omega))
  | .ok (.comment, rest) =>
    have hr := scan_progress h
    have hs := skipAtmosphere_length rest
    match readDatum depth (skipAtmosphere rest) with
    | .error f => .error f
    | .ok (_, ⟨rest, hd⟩) =>
      have hs' := skipAtmosphere_length rest
      match readDatum depth (skipAtmosphere rest) with
      | .error f => .error f
      | .ok (d, rest) => .ok (d, rest.weaken (by omega))
termination_by 2 * cs.length

def readItems (close : Char) (depth : Nat) (items : List Datum) (cs : List Char) :
    Except Fault (List Datum × Datum × Rest cs) :=
  have hs := skipAtmosphere_length cs
  match h : skipAtmosphere cs with
  | [] => .error ⟨.endOfInput, []⟩
  | c :: rest =>
    have hc : rest.length < cs.length := by simp [h] at hs; omega
    if c == close then .ok (items.reverse, .null, ⟨rest, hc⟩)
    else if c == ')' || c == ']' then .error ⟨.unexpectedCharacter, c :: rest⟩
    else if isLoneDot c rest then
      if items.isEmpty then .error ⟨.unexpectedCharacter, c :: rest⟩ else
        have hs := skipAtmosphere_length rest
        match readDatum depth (skipAtmosphere rest) with
        | .error f => .error f
        | .ok (tail, ⟨rest, hd⟩) =>
          have hs := skipAtmosphere_length rest
          match closeTail close (skipAtmosphere rest) with
          | .error f => .error f
          | .ok rest => .ok (items.reverse, tail, rest.weaken (by omega))
    else
      match readDatum depth (c :: rest) with
      | .error f => .error f
      | .ok (item, ⟨rest', hd⟩) =>
        have hl : rest'.length < cs.length := by simp at hd; omega
        match readItems close depth (item :: items) rest' with
        | .error f => .error f
        | .ok (items, tail, rest) => .ok (items, tail, rest.weaken (by omega))
termination_by 2 * cs.length + 1

end

end HygienicScheme.Reader
