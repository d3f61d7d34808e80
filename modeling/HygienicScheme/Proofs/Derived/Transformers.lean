import HygienicScheme.Expansion
import HygienicScheme.Proofs.SyntaxRules.Matching
import HygienicScheme.SyntaxRules.Basic

/-!
# The derived forms as transformers

What the definitions of `let`, `letrec`, `cond`, `case` and `do` are compiled to. Their patterns are
lists of patterns, of which the last may be repeated. Such a pattern matches nothing but proper
lists, and these item by item.
-/
namespace HygienicScheme

namespace Derived

def pattern (items : List Pattern) (rest : PatternSeq) : Pattern := .list (items.foldr .item rest)

def template (items : List (Template × Nat)) : Template :=
  .list (items.foldr (fun item more => .item item.1 item.2 more) .done)

def binds (name : String) : Pattern := .variable (.user name)

def bindsAll (name : String) : PatternSeq := .repeated (binds name) .done

def expects (name : String) : Pattern := .literal (.user name)

def puts (name : String) : Template × Nat := (.variable (.user name), 0)

def putsAll (name : String) : Template × Nat := (.variable (.user name), 1)

def brings (name : String) : Template × Nat := (.free (.user name), 0)

def bringsFalse : Template × Nat := (.constant (.bool false), 0)

def bringsNull : Template × Nat := (.constant .null, 0)

def nested (items : List (Template × Nat)) : Template × Nat := (template items, 0)

/-- `(if #f #f)` -/
def unspecifiedForm : Template × Nat := nested [brings "if", bringsFalse, bringsFalse]

def depths (vars : List (String × Nat)) : List (Symbol × Nat) := vars.map fun x => (.user x.1, x.2)

def letForm : Transformer where
  name := "let"
  literals := []
  rules := [
    { number := 1
      pattern := pattern [.wildcard,
        .list (.repeated (pattern [binds "name", binds "val"] .done) .done), binds "body1"]
        (bindsAll "body2")
      template := template [
        nested [brings "lambda", nested [putsAll "name"], puts "body1", putsAll "body2"],
        putsAll "val"]
      depths := depths [("name", 1), ("val", 1), ("body1", 0), ("body2", 1)] },
    { number := 2
      pattern := pattern [.wildcard, binds "tag",
        .list (.repeated (pattern [binds "name", binds "val"] .done) .done), binds "body1"]
        (bindsAll "body2")
      template := template [nested [brings "letrec", nested [nested [puts "tag",
        nested [brings "lambda", nested [putsAll "name"], puts "body1", putsAll "body2"]]],
        puts "tag"], putsAll "val"]
      depths := depths [("tag", 0), ("name", 1), ("val", 1), ("body1", 0), ("body2", 1)] }]

def letrecForm : Transformer where
  name := "letrec"
  literals := []
  rules := [
    { number := 1
      pattern := pattern [.wildcard,
        .list (.repeated (pattern [binds "var", binds "init"] .done) .done), binds "body1"]
        (bindsAll "body2")
      template := template [nested [brings "lambda", bringsNull,
        (template [brings "define", puts "var", puts "init"], 1),
        nested [brings "let", bringsNull, puts "body1", putsAll "body2"]]]
      depths := depths [("var", 1), ("init", 1), ("body1", 0), ("body2", 1)] }]

/-- `(begin result1 result2 ...)` -/
def resultsForm : Template × Nat := nested [brings "begin", puts "result1", putsAll "result2"]

/-- `(cond clause1 clause2 ...)` -/
def clausesForm : Template × Nat := nested [brings "cond", puts "clause1", putsAll "clause2"]

/-- `(let ((temp test)) (if temp consequent alternative ...))` -/
def tempForm (consequent : Template × Nat) (alternative : List (Template × Nat)) : Template :=
  template [brings "let", nested [nested [brings "temp", puts "test"]],
    nested ([brings "if", brings "temp", consequent] ++ alternative)]

def condForm : Transformer where
  name := "cond"
  literals := [.user "else", .user "=>"]
  rules := [
    { number := 1
      pattern := pattern [.wildcard] .done
      template := unspecifiedForm.1
      depths := [] },
    { number := 2
      pattern := pattern [.wildcard,
        pattern [expects "else", binds "result1"] (bindsAll "result2")] .done
      template := resultsForm.1
      depths := depths [("result1", 0), ("result2", 1)] },
    { number := 3
      pattern := pattern [.wildcard,
        pattern [binds "test", expects "=>", binds "result"] .done] .done
      template := tempForm (nested [puts "result", brings "temp"]) []
      depths := depths [("test", 0), ("result", 0)] },
    { number := 4
      pattern := pattern [.wildcard, pattern [binds "test", expects "=>", binds "result"] .done,
        binds "clause1"] (bindsAll "clause2")
      template := tempForm (nested [puts "result", brings "temp"]) [clausesForm]
      depths := depths [("test", 0), ("result", 0), ("clause1", 0), ("clause2", 1)] },
    { number := 5
      pattern := pattern [.wildcard, pattern [binds "test"] .done] .done
      template := (puts "test").1
      depths := depths [("test", 0)] },
    { number := 6
      pattern := pattern [.wildcard, pattern [binds "test"] .done, binds "clause1"]
        (bindsAll "clause2")
      template := tempForm (brings "temp") [clausesForm]
      depths := depths [("test", 0), ("clause1", 0), ("clause2", 1)] },
    { number := 7
      pattern := pattern [.wildcard,
        pattern [binds "test", binds "result1"] (bindsAll "result2")] .done
      template := template [brings "if", puts "test", resultsForm]
      depths := depths [("test", 0), ("result1", 0), ("result2", 1)] },
    { number := 8
      pattern := pattern [.wildcard, pattern [binds "test", binds "result1"] (bindsAll "result2"),
        binds "clause1"] (bindsAll "clause2")
      template := template [brings "if", puts "test", resultsForm, clausesForm]
      depths := depths [("test", 0), ("result1", 0), ("result2", 1), ("clause1", 0),
        ("clause2", 1)] }]

/-- `(if (memv key (quote (atoms ...))) (begin result1 result2 ...) alternative ...)` -/
def memberForm (alternative : List (Template × Nat)) : Template :=
  template ([brings "if",
    nested [brings "memv", puts "key", nested [brings "quote", nested [putsAll "atoms"]]],
    resultsForm] ++ alternative)

def caseForm : Transformer where
  name := "case"
  literals := [.user "else"]
  rules := [
    { number := 1
      pattern := pattern [.wildcard, .list (bindsAll "key")] (bindsAll "clauses")
      template := template [brings "let",
        nested [nested [brings "atom-key", nested [putsAll "key"]]],
        nested [brings "case", brings "atom-key", putsAll "clauses"]]
      depths := depths [("key", 1), ("clauses", 1)] },
    { number := 2
      pattern := pattern [.wildcard, binds "key"] .done
      template := unspecifiedForm.1
      depths := depths [("key", 0)] },
    { number := 3
      pattern := pattern [.wildcard, binds "key",
        pattern [expects "else", binds "result1"] (bindsAll "result2")] .done
      template := resultsForm.1
      depths := depths [("key", 0), ("result1", 0), ("result2", 1)] },
    { number := 4
      pattern := pattern [.wildcard, binds "key",
        pattern [.list (bindsAll "atoms"), binds "result1"] (bindsAll "result2")] .done
      template := memberForm []
      depths := depths [("key", 0), ("atoms", 1), ("result1", 0), ("result2", 1)] },
    { number := 5
      pattern := pattern [.wildcard, binds "key",
        pattern [.list (bindsAll "atoms"), binds "result1"] (bindsAll "result2"), binds "clause"]
        (bindsAll "clauses")
      template := memberForm [nested [brings "case", puts "key", puts "clause", putsAll "clauses"]]
      depths := depths [("key", 0), ("atoms", 1), ("result1", 0), ("result2", 1), ("clause", 0),
        ("clauses", 1)] }]

def stepMark (id : Nat) : Value := .string ⟨id, "step"⟩

def doForm : Transformer where
  name := "do"
  literals := []
  rules := [
    { number := 1
      pattern := pattern [.wildcard,
        .list (.repeated (pattern [binds "var", binds "init"] (bindsAll "step")) .done),
        pattern [binds "test"] (bindsAll "expr")] (bindsAll "command")
      template := template [brings "letrec", nested [nested [brings "loop",
        nested [brings "lambda", nested [putsAll "var"], nested [brings "if", puts "test",
          nested [brings "begin", unspecifiedForm, putsAll "expr"],
          nested [brings "begin", putsAll "command", nested [brings "loop",
            (template [brings "do", (.constant (stepMark 0), 0), puts "var", putsAll "step"],
              1)]]]]]],
        nested [brings "loop", putsAll "init"]]
      depths := depths [("var", 1), ("init", 1), ("step", 2), ("test", 0), ("expr", 1),
        ("command", 1)] },
    { number := 2
      pattern := pattern [.wildcard, .constant (stepMark 1), binds "x"] .done
      template := (puts "x").1
      depths := depths [("x", 0)] },
    { number := 3
      pattern := pattern [.wildcard, .constant (stepMark 2), binds "x", binds "y"] .done
      template := (puts "y").1
      depths := depths [("x", 0), ("y", 0)] }]

def forms : List Transformer := [letForm, letrecForm, condForm, caseForm, doForm]

end Derived

/-! ### Matching proper lists -/

def PatternSeq.Whole : PatternSeq → Prop
  | .done | .repeated _ .done => True
  | .item _ more => more.Whole
  | .rest _ | .repeated _ _ => False

namespace SyntaxRules

def matchProper (s : Store) : PatternSeq → List Value → Option Bindings
  | .done, [] => some []
  | .item p more, v :: vs => do
    let b ← (matchPattern s p v).toOption
    let bs ← matchProper s more vs
    return b ++ bs
  | .repeated p _, vs => (matchEach (matchPattern s p) vs).toOption.map (gather p.vars)
  | _, _ => none

variable {s : Store} {v : Value} {vs : List Value} {bs : Bindings} {ps : PatternSeq}

theorem toOption_eq_some {α β : Type} {x : Except α β} {b : β} :
    x.toOption = some b ↔ x = .ok b := by
  cases x <;> simp [Except.toOption]

theorem leading_le_of_proper : ∀ {ps : PatternSeq} {vs : List Value} {bs : Bindings},
    matchProper s ps vs = some bs → ps.leading.length ≤ vs.length
  | .done, _, _, _ | .rest _, _, _, _ | .repeated _ _, _, _, _ => Nat.zero_le _
  | .item _ _, [], _, h => by cases h
  | .item p more, v :: vs, bs, h => by
    obtain ⟨b, -, h⟩ := Option.bind_eq_some_iff.mp h
    obtain ⟨cs, hcs, -⟩ := Option.bind_eq_some_iff.mp h
    exact Nat.succ_le_succ (leading_le_of_proper hcs)

theorem matchItems_proper {subject : Subject} : ∀ {ps : PatternSeq} {n : Nat} {vs : List Value}
    {bs : Bindings}, ps.Whole → subject.count = n + vs.length →
      (matchItems s ps subject n vs = .ok bs ↔
        subject.tail = .null ∧ matchProper s ps vs = some bs)
  | .done, n, vs, bs, _, hcount => by
    rw [matchItems_done, hcount]
    cases vs <;> simp [matchProper, eq_comm]
  | .item p more, n, [], bs, _, _ => by
    rw [matchItems_item]
    simp [matchProper]
  | .item p more, n, v :: vs, bs, hps, hcount => by
    have hmore : subject.count = n + 1 + vs.length := by
      rw [hcount, List.length_cons]
      omega
    have hclosed : more.Whole := hps
    rw [matchItems_item, matchProper]
    constructor
    · rintro ⟨-, _, _, b, cs, ⟨⟩, hb, hcs, rfl⟩
      obtain ⟨htail, hproper⟩ := (matchItems_proper hclosed hmore).mp hcs
      exact ⟨htail, by rw [toOption_eq_some.mpr hb, hproper]; rfl⟩
    · rintro ⟨htail, h⟩
      obtain ⟨b, hb, h⟩ := Option.bind_eq_some_iff.mp h
      obtain ⟨cs, hcs, h⟩ := Option.bind_eq_some_iff.mp h
      cases h
      have hleading := leading_le_of_proper hcs
      exact ⟨by omega, v, vs, b, cs, rfl, toOption_eq_some.mp hb,
        (matchItems_proper hclosed hmore).mpr ⟨htail, hcs⟩, rfl⟩
  | .repeated p .done, n, vs, bs, _, hcount => by
    have hmany : subject.count - (n + PatternSeq.done.leading.length) = vs.length := by
      simp [hcount, PatternSeq.leading]
    have hleast : n + PatternSeq.done.leading.length ≤ subject.count := by
      simp [hcount, PatternSeq.leading]
    rw [matchItems_repeated, hmany, List.take_length, List.drop_length, matchProper]
    constructor
    · rintro ⟨htail, -, rows, cs, hrows, hcs, rfl⟩
      obtain ⟨-, -, rfl⟩ := matchItems_done.mp hcs
      refine ⟨htail, ?_⟩
      rw [toOption_eq_some.mpr (matchEach_ok_iff.mpr hrows), List.append_nil]
      rfl
    · rintro ⟨htail, h⟩
      obtain ⟨rows, hrows, rfl⟩ := Option.map_eq_some_iff.mp h
      exact ⟨htail, hleast, rows, [], matchEach_ok_iff.mp (toOption_eq_some.mp hrows),
        matchItems_done.mpr ⟨hcount, htail, rfl⟩, (List.append_nil _).symm⟩

theorem matchPattern_proper (hps : ps.Whole) : (matchPattern s (.list ps) v).toOption =
    (s.properList? v).bind (matchProper s ps) := by
  refine Option.ext fun bs => ?_
  rw [toOption_eq_some, matchPattern_list, Option.bind_eq_some_iff]
  constructor
  · rintro ⟨-, vs, tail, hchain, h⟩
    obtain ⟨htail, hproper⟩ := (matchItems_proper hps (by simp)).mp h
    cases htail
    exact ⟨vs, Store.properList?_eq_some.mpr hchain, hproper⟩
  · rintro ⟨vs, hchain, h⟩
    have hchain := Store.properList?_eq_some.mp hchain
    refine ⟨?_, vs, .null, hchain, (matchItems_proper hps (by simp)).mpr ⟨rfl, h⟩⟩
    cases hchain with
    | tail => exact .inl rfl
    | pair => exact .inr ⟨_, rfl⟩

@[simp] theorem matchProper_item {p : Pattern} : matchProper s (.item p ps) (v :: vs) =
    (matchPattern s p v).toOption.bind fun b => (matchProper s ps vs).map (b ++ ·) := by
  rw [matchProper]
  cases (matchPattern s p v).toOption with
  | none => rfl
  | some b => cases matchProper s ps vs <;> rfl

@[simp] theorem matchProper_item_nil {p : Pattern} : matchProper s (.item p ps) [] = none := by
  rw [matchProper]
  all_goals nofun

@[simp] theorem matchProper_done : matchProper s .done vs = if vs = [] then some [] else none := by
  cases vs <;> simp [matchProper]

@[simp] theorem matches_wildcard : (matchPattern s .wildcard v).toOption = some [] := rfl

@[simp] theorem matches_variable {x : Symbol} :
    (matchPattern s (.variable x) v).toOption = some [(x, .one v)] := rfl

theorem matches_literal {x : Symbol} : (matchPattern s (.literal x) v).toOption =
    if v.isNamed x.name then some [] else none := by
  rw [matchPattern]
  split <;> rfl

theorem matchProper_variables {x : Symbol} : matchProper s (.repeated (.variable x) .done) vs =
    some [(x, .many (vs.map .one))] := by
  have heach : matchEach (matchPattern s (.variable x)) vs = .ok (vs.map fun v =>
    [(x, .one v)]) := by
    rw [matchEach_ok_iff, List.forall₂_map_right_iff, List.forall₂_same]
    exact fun _ _ => rfl
  rw [matchProper, heach]
  simp [Except.toOption, gather, Pattern.vars, List.filterMap_map]

end SyntaxRules

namespace Expansion

variable {s : Store} {form : Value} {r : Rule} {more : List Rule} {bs : Bindings}

theorem firstMatch?_matches (h : (SyntaxRules.matchPattern s r.pattern form).toOption = some bs) :
    firstMatch? s form (r :: more) = some (r, bs) := by
  rw [firstMatch?, Rule.bindings, SyntaxRules.toOption_eq_some.mp h]

theorem firstMatch?_passes (h : (SyntaxRules.matchPattern s r.pattern form).toOption = none) :
    firstMatch? s form (r :: more) = firstMatch? s form more := by
  rw [firstMatch?, Rule.bindings]
  cases hmatch : SyntaxRules.matchPattern s r.pattern form with
  | ok bs =>
    rw [hmatch] at h
    cases h
  | error => rfl

@[simp] theorem firstMatch?_nil : firstMatch? s form [] = none := rfl

@[simp] theorem firstMatch?_cons : firstMatch? s form (r :: more) =
    match (SyntaxRules.matchPattern s r.pattern form).toOption with
    | some bs => some (r, bs)
    | none => firstMatch? s form more := by
  cases h : (SyntaxRules.matchPattern s r.pattern form).toOption with
  | none => exact firstMatch?_passes h
  | some bs => exact firstMatch?_matches h

end Expansion

end HygienicScheme
