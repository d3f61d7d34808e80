import HygienicScheme.Proofs.Reading.Lines

/-!
# Places between tokens

A seam of a text is a place where neither a token nor a comment is cut in two. It is found by taking
off the pieces of the text in front of it, which also tells what is open around it and with that the
depth at which a datum would stand there.
-/
namespace HygienicScheme.Reader

variable {u cs rest rest' pre post : List Char} {c : Char} {t : Token} {n : Nat}

inductive Gap : List Char → Prop
  | space {c : Char} (hc : isSpace c) : Gap [c]
  | line {text ending : List Char} (htext : ∀ c ∈ text, c ≠ '\r' ∧ c ≠ '\n')
      (hend : ending = ['\n'] ∨ ending = ['\r', '\n']) : Gap (';' :: (text ++ ending))
  | block {body : List Char} (hbody : ¬ ['|', '#'] <:+: body) :
      Gap ('#' :: '|' :: (body ++ ['|', '#']))

theorem afterLine?_text {text : List Char} (htext : ∀ c ∈ text, c ≠ '\r' ∧ c ≠ '\n')
    (cs : List Char) : afterLine? (text ++ cs) = afterLine? cs := by
  induction text with
  | nil => rfl
  | cons c text ih =>
    obtain ⟨hreturn, hline⟩ := htext c List.mem_cons_self
    rw [List.cons_append, afterLine?]
    · exact ih fun x hx => htext x (List.mem_cons_of_mem c hx)
    · exact fun _ hc _ => hreturn hc
    · exact hreturn
    · exact hline

theorem afterBlock?_body {body : List Char} (hbody : ¬ ['|', '#'] <:+: body) (cs : List Char) :
    afterBlock? (body ++ '|' :: '#' :: cs) = some cs := by
  induction body with
  | nil => rfl
  | cons c body ih =>
    rw [List.cons_append, afterBlock?]
    · exact ih fun h => hbody (h.trans (List.suffix_cons c body).isInfix)
    · rintro more rfl hmore
      cases body with
      | nil => cases hmore
      | cons x body =>
        obtain ⟨rfl, -⟩ := List.cons.inj hmore
        exact hbody (List.prefix_append ['|', '#'] body).isInfix

theorem Gap.skip (h : Gap u) (cs : List Char) : skipAtmosphere (u ++ cs) = skipAtmosphere cs := by
  cases h with
  | space hc => exact skipAtmosphere_space hc
  | @line text ending htext hend =>
    have hline := afterLine?_text htext (ending ++ cs)
    rw [List.cons_append, List.append_assoc]
    rcases hend with rfl | rfl
    · exact (skipAtmosphere_line hline).trans (skipAtmosphere_space rfl)
    · exact (skipAtmosphere_line hline).trans
        ((skipAtmosphere_space rfl).trans (skipAtmosphere_space rfl))
  | @block body hbody =>
    rw [List.cons_append, List.cons_append, List.append_assoc]
    exact skipAtmosphere_block (afterBlock?_body hbody cs)

/-! ### What is open around a place -/

/-- A list or vector whose closing bracket is still to come, or an abbreviation or a datum comment
whose datum is. -/
inductive Construct
  | bracket
  | abbreviation
  | comment
deriving DecidableEq, Repr

def depthOf : List Construct → Nat
  | [] => 0
  | .comment :: st => depthOf st
  | _ :: st => depthOf st + 1

def settle : List Construct → List Construct
  | .abbreviation :: st => settle st
  | .comment :: st => st
  | st => st

def Token.enter : Token → List Construct → List Construct
  | .constant _, st => settle st
  | .list _, st => .bracket :: st
  | .vector, st => .bracket :: st
  | .abbreviation _, st => .abbreviation :: st
  | .comment, st => .comment :: st

/-- A token, closing bracket or point at the front of a text, between what is open before and behind
it. -/
inductive Lexeme : List Construct → List Char → List Char → List Construct → Prop
  | token {st : List Construct} {u rest : List Char} {t : Token}
      (hscan : scan (u ++ rest) = .ok (t, rest)) : Lexeme st u rest (t.enter st)
  | close {st : List Construct} {c : Char} {rest : List Char} (hc : c = ')' ∨ c = ']') :
      Lexeme (.bracket :: st) [c] rest (settle st)
  | dot {st : List Construct} {rest : List Char} (hdot : isLoneDot '.' rest) :
      Lexeme st ['.'] rest st

/-- The place between the two parts of the text lies between its tokens, and a datum there would
stand at this depth. -/
inductive Seam : List Construct → Nat → List Char → List Char → Prop
  | here (st : List Construct) (post : List Char) : Seam st (depthOf st) [] post
  | gap {st : List Construct} {n : Nat} {u pre post : List Char} (hgap : Gap u)
      (hmore : Seam st n pre post) : Seam st n (u ++ pre) post
  | lexeme {st st' : List Construct} {n : Nat} {u pre post : List Char}
      (hlexeme : Lexeme st u (pre ++ post) st') (hmore : Seam st' n pre post) :
      Seam st n (u ++ pre) post

variable {st st' : List Construct}

theorem isMark_of_lone (h : isLoneDot c rest) : isMark c rest := by
  rw [isMark, h, Bool.or_true]

theorem isMark_of_bracket (hc : c = ')' ∨ c = ']') : isMark c rest := by
  rcases hc with rfl | rfl <;> rfl

theorem isMark_cases (h : isMark c rest) : (c = ')' ∨ c = ']') ∨ isLoneDot c rest := by
  simpa only [isMark, Bool.or_eq_true, beq_iff_eq] using h

theorem skipAtmosphere_mark (h : isMark c rest) : skipAtmosphere (c :: rest) = c :: rest := by
  have hc : c = ')' ∨ c = ']' ∨ c = '.' := by
    rcases isMark_cases h with hc | hdot
    · exact hc.imp_right .inl
    · exact .inr (.inr (eq_of_isLoneDot hdot))
  rcases hc with rfl | rfl | rfl
  all_goals exact skipAtmosphere_cons rfl (by decide) nofun

theorem isLoneDot_iff : isLoneDot '.' rest ↔ Boundary rest := by
  cases rest with
  | nil => simp [isLoneDot, boundary_nil]
  | cons c rest => simp [isLoneDot, Boundary]

/-- A lexeme does not depend on what follows it as long as that cannot be taken into it. -/
theorem Lexeme.congr (h : Lexeme st u rest st') (hparted : Parted rest rest') :
    Lexeme st u rest' st' := by
  cases h with
  | token hscan => exact .token (scan_congr hscan hparted)
  | close hc => exact .close hc
  | dot hdot => exact .dot (isLoneDot_iff.mpr (hparted.boundary (isLoneDot_iff.mp hdot)))

theorem Lexeme.skip (h : Lexeme st u rest st') : skipAtmosphere (u ++ rest) = u ++ rest := by
  cases h with
  | token hscan => exact skipAtmosphere_of_scan hscan
  | close hc => exact skipAtmosphere_mark (isMark_of_bracket hc)
  | dot hdot => exact skipAtmosphere_mark (isMark_of_lone hdot)

theorem Lexeme.ne_nil (h : Lexeme st u rest st') : u ≠ [] := by
  cases h with
  | token hscan =>
    rintro rfl
    exact absurd (scan_progress hscan) (Nat.lt_irrefl _)
  | close => exact List.cons_ne_nil _ _
  | dot => exact List.cons_ne_nil _ _

theorem Lexeme.of_scan {more : List Char} (h : Lexeme st u rest st')
    (hscan : scan (u ++ rest) = .ok (t, more)) : more = rest ∧ st' = t.enter st := by
  cases h with
  | token hscan' =>
    cases hscan'.symm.trans hscan
    exact ⟨rfl, rfl⟩
  | close hc => exact absurd (isMark_of_bracket hc) (not_isMark_of_scan hscan ▸ Bool.false_ne_true)
  | dot hdot => exact absurd (isMark_of_lone hdot) (not_isMark_of_scan hscan ▸ Bool.false_ne_true)

theorem Lexeme.of_bracket {more : List Char} (h : Lexeme (.bracket :: st) u rest st')
    (hc : c = ')' ∨ c = ']') (hcs : u ++ rest = c :: more) :
    u = [c] ∧ more = rest ∧ st' = settle st := by
  cases h with
  | token hscan =>
    rw [hcs] at hscan
    exact absurd (isMark_of_bracket hc) (not_isMark_of_scan hscan ▸ Bool.false_ne_true)
  | close =>
    cases hcs
    exact ⟨rfl, rfl, rfl⟩
  | dot =>
    cases hcs
    rcases hc with hc | hc <;> cases hc

theorem Lexeme.of_dot {more : List Char} (h : Lexeme st u rest st') (hdot : isLoneDot c more)
    (hcs : u ++ rest = c :: more) : u = [c] ∧ more = rest ∧ st' = st := by
  cases h with
  | token hscan =>
    rw [hcs] at hscan
    exact absurd (isMark_of_lone hdot) (not_isMark_of_scan hscan ▸ Bool.false_ne_true)
  | close hc =>
    cases hcs
    cases eq_of_isLoneDot hdot
    rcases hc with hc | hc <;> cases hc
  | dot =>
    cases hcs
    exact ⟨rfl, rfl, rfl⟩

theorem Seam.front (h : Seam st n pre post) :
    (depthOf st = n ∧ ∀ cs, skipAtmosphere (pre ++ cs) = skipAtmosphere cs) ∨
      ∃ u pre' st', (∀ cs, skipAtmosphere (pre ++ cs) = skipAtmosphere (u ++ (pre' ++ cs))) ∧
        Lexeme st u (pre' ++ post) st' ∧ Seam st' n pre' post := by
  induction h with
  | here st post => exact .inl ⟨rfl, fun cs => rfl⟩
  | @gap st n u pre post hgap hmore ih =>
    have hskip (cs : List Char) : skipAtmosphere (u ++ pre ++ cs) = skipAtmosphere (pre ++ cs) := by
      rw [List.append_assoc, hgap.skip]
    rcases ih with ⟨hdepth, hall⟩ | ⟨v, pre', st', hall, hlexeme, hseam⟩
    · exact .inl ⟨hdepth, fun cs => (hskip cs).trans (hall cs)⟩
    · exact .inr ⟨v, pre', st', fun cs => (hskip cs).trans (hall cs), hlexeme, hseam⟩
  | @lexeme st st' n u pre post hlexeme hmore =>
    exact .inr ⟨u, pre, st', fun cs => by rw [List.append_assoc], hlexeme, hmore⟩

end HygienicScheme.Reader
