import HygienicScheme.Proofs.Derived.Pieces
import HygienicScheme.Proofs.Hygiene.Expanding

/-!
# Expanding `cond`

A `cond` form is expanded clause by clause. What it becomes tells for each clause of which of four
kinds it is; the value of a test is held by a procedure of one parameter, which the expansion
introduces, wherever more than its truth is wanted.
-/
namespace HygienicScheme

open Expansion (firstMatch?)

inductive Clause
  /-- A last clause whose test is `else`. -/
  | otherwise (body : List Value)
  /-- Nothing but a test. -/
  | bare (test : Value)
  /-- A test and, after `=>`, what is applied to its value. -/
  | receive (test receiver : Value)
  | plain (test : Value) (body : List Value)

namespace Clause

def ofItems? (last : Bool) : List Value → Option Clause
  | [] => none
  | [test] => some (.bare test)
  | test :: next :: more =>
    if last && test.isNamed "else" then some (.otherwise (next :: more))
    else match more with
      | [receiver] =>
        if next.isNamed "=>" then some (.receive test receiver)
        else some (.plain test [next, receiver])
      | _ => some (.plain test (next :: more))

section Items

variable {last : Bool} {test next receiver : Value} {more : List Value}

theorem ofItems?_otherwise (h : (last && test.isNamed "else") = true) :
    ofItems? last (test :: next :: more) = some (.otherwise (next :: more)) := by
  unfold ofItems?
  exact if_pos h

theorem ofItems?_receive (h : (last && test.isNamed "else") = false) (hnext : next.isNamed "=>") :
    ofItems? last [test, next, receiver] = some (.receive test receiver) := by
  unfold ofItems?
  dsimp only
  rw [h]
  exact if_pos hnext

theorem ofItems?_plain (h : (last && test.isNamed "else") = false)
    (hnext : ∀ receiver, more = [receiver] → next.isNamed "=>" = false) :
    ofItems? last (test :: next :: more) = some (.plain test (next :: more)) := by
  unfold ofItems?
  dsimp only
  rw [h, if_neg Bool.false_ne_true]
  match more with
  | [] => rfl
  | [receiver] => exact if_neg (by simp [hnext])
  | _ :: _ :: _ => rfl

theorem last_of_otherwise {items body : List Value}
    (h : ofItems? last items = some (.otherwise body)) : last = true := by
  match items with
  | [] | [_] => cases h
  | test :: next :: more =>
    unfold ofItems? at h
    dsimp only at h
    split at h
    · exact (Bool.and_eq_true_iff.mp ‹_›).1
    · split at h
      · split at h <;> cases h
      · cases h

end Items

def codes : Clause → List Value
  | otherwise body => body
  | bare test => [test]
  | receive test receiver => [test, receiver]
  | plain test body => test :: body

inductive Compiles (R : Value → Value → Prop) : Clause → Clause → Prop
  | otherwise {body body' : List Value} (h : List.Forall₂ R body body') :
      Compiles R (.otherwise body) (.otherwise body')
  | bare {test test' : Value} (h : R test test') : Compiles R (.bare test) (.bare test')
  | receive {test test' receiver receiver' : Value} (h : R test test')
      (hreceiver : R receiver receiver') :
      Compiles R (.receive test receiver) (.receive test' receiver')
  | plain {test test' : Value} {body body' : List Value} (h : R test test')
      (hbody : List.Forall₂ R body body') : Compiles R (.plain test body) (.plain test' body')

theorem Compiles.mono {R R' : Value → Value → Prop} {k k' : Clause} (h : k.Compiles R k')
    (hR : ∀ v w, R v w → R' v w) : k.Compiles R' k' := by
  cases h with
  | otherwise h => exact .otherwise (h.imp hR)
  | bare h => exact .bare (hR _ _ h)
  | receive h hreceiver => exact .receive (hR _ _ h) (hR _ _ hreceiver)
  | plain h hbody => exact .plain (hR _ _ h) (hbody.imp hR)

end Clause

namespace Store

def clause? (s : Store) (last : Bool) (v : Value) : Option Clause :=
  (s.properList? v).bind (Clause.ofItems? last)

def clauses? (s : Store) : List Value → Option (List Clause)
  | [] => some []
  | v :: more => do
    let k ← s.clause? more.isEmpty v
    let ks ← s.clauses? more
    return k :: ks

def Receives (s : Store) (vs : List Value) (receiver : Value) : Prop := ∃ before v after test,
  vs = before ++ v :: after ∧ s.clause? after.isEmpty v = some (.receive test receiver)

theorem Receives.more {s : Store} {v receiver : Value} {vs : List Value}
    (h : s.Receives vs receiver) : s.Receives (v :: vs) receiver := by
  obtain ⟨before, w, after, test, rfl, hw⟩ := h
  exact ⟨v :: before, w, after, test, rfl, hw⟩

end Store

namespace Derived

open Store Sketch MacroUse SyntaxRules

def selects : List (Symbol × Clause) → Sketch
  | [] => .form "if" [.atom (.bool false), .atom (.bool false)]
  | (x, k) :: more =>
    let rest := if more.isEmpty then [] else [selects more]
    match k with
    | .otherwise body => .form "begin" (parts body)
    | .bare test =>
      if more.isEmpty then .part test
      else .holding x (.form "if" (.atom (.symbol x) :: .atom (.symbol x) :: rest)) test
    | .receive test receiver =>
      .holding x (.form "if"
        (.atom (.symbol x) :: .list [.part receiver, .atom (.symbol x)] :: rest))
        test
    | .plain test body => .form "if" (.part test :: .form "begin" (parts body) :: rest)

def ElseLast : List (Symbol × Clause) → Prop
  | [] => True
  | (_, k) :: more =>
    match k with
    | .otherwise _ => more = []
    | _ => ElseLast more

variable {env : Environment} {last s t u : Store} {own more : Reserve} {v w clause head : Value}
  {H T U : Sketch} {vs ws items : List Value} {x : Symbol} {m : Transformer} {P : Sketch → Prop}

def Drawn (env : Environment) (m : Transformer) (s : Store) (own : Reserve) (v : Value)
    (T : Sketch) :
    Prop := ∃ r bs fs, firstMatch? s v m.rules = some (r, bs) ∧ s.FitsEach own bs fs ∧
      r.template.draw (introduce ⟨m, env, s.phase, s.uses⟩ s) fs = some T

theorem Drawn.replaces (h : s.Expands last → Drawn env m s own v T)
    (hdrafts : s.Expands last → ∀ ⦃t more⦄, s.Adds own t more → Drafts env last more t T P) :
    Replaces env last m s own v P := by
  intro r bs hfound hlast
  obtain ⟨r', bs', fs, hfound', hfits, hdraw⟩ := h hlast
  cases hfound.symm.trans hfound'
  exact ⟨fs, T, hfits, hdraw, fun t more hst _ => hdrafts hlast hst⟩

theorem replaces_of_none (h : firstMatch? s v m.rules = none) : Replaces env last m s own v P := by
  intro r bs hfound
  cases h.symm.trans hfound

abbrev further (vs : List Value) : List Sketch :=
  if vs.isEmpty then [] else [.form "cond" (parts vs)]

section Rules

variable (hproper : s.properList? v = some (head :: clause :: vs))

include hproper

theorem cond_refuses (h : s.clause? vs.isEmpty clause = none) :
    firstMatch? s v condForm.rules = none := by
  cases hitems : s.properList? clause with
  | none => cases vs <;> simp [condForm, hproper, hitems]
  | some items =>
    rcases items with _ | ⟨test, _ | ⟨next, rest⟩⟩
    · cases vs <;> simp [condForm, hproper, hitems]
    · rw [clause?, hitems] at h
      cases h
    · rw [clause?, hitems] at h
      simp only [Option.bind_some, Clause.ofItems?] at h
      split at h
      · cases h
      · split at h
        · split at h <;> cases h
        · cases h

variable {test next receiver : Value} {rest : List Value}
  (hguests : ∀ w ∈ vs, s.Guest own w)
  (hcond : introduce ⟨condForm, env, s.phase, s.uses⟩ s (.user "cond") = .user "cond")

theorem cond_draws_otherwise (hvs : vs = [])
    (hitems : s.properList? clause = some (test :: next :: rest)) (helse : test.isNamed "else")
    (hclause : ∀ w ∈ test :: next :: rest, s.Guest own w) :
    Drawn env condForm s own v (.form "begin" (parts (next :: rest))) := by
  subst hvs
  have hmatch : firstMatch? s v condForm.rules = some (condForm.rules[1],
      [(.user "result1", .one next), (.user "result2", .many (rest.map .one))]) := by
    simp [condForm, hproper, hitems, helse]
  refine ⟨_, _, [(.user "result1", .one (.part next)),
    (.user "result2", .many ((parts rest).map .one))], hmatch,
    .cons ⟨rfl, fits_part (hclause _ (.tail _ (.head _)))⟩
      (.cons ⟨rfl, fits_parts fun w hw => hclause w (.tail _ (.tail _ hw))⟩ .nil), ?_⟩
  exact draw_template (.core rfl (.variable_one rfl (.variable_last rfl)))

include hguests hcond

theorem cond_draws_plain (hitems : s.properList? clause = some (test :: next :: rest))
    (helse : (vs.isEmpty && test.isNamed "else") = false)
    (harrow : ∀ receiver, rest = [receiver] → next.isNamed "=>" = false)
    (hclause : ∀ w ∈ test :: next :: rest, s.Guest own w) :
    Drawn env condForm s own v
      (.form "if" (.part test :: .form "begin" (parts (next :: rest)) :: further vs)) := by
  have htest := fits_part (hclause _ (.head _))
  have hnext := fits_part (hclause _ (.tail _ (.head _)))
  have hrest : s.Fits own (.many (rest.map .one)) (.many ((parts rest).map .one)) :=
    fits_parts fun w hw => hclause w (.tail _ (.tail _ hw))
  cases vs with
  | nil =>
    have hmatch : firstMatch? s v condForm.rules = some (condForm.rules[6],
        [(.user "test", .one test), (.user "result1", .one next),
          (.user "result2", .many (rest.map .one))]) := by
      match rest with
      | [] | _ :: _ :: _ => simp_all [condForm]
      | [receiver] => simp_all [condForm]
    refine ⟨_, _, [(.user "test", .one (.part test)), (.user "result1", .one (.part next)),
      (.user "result2", .many ((parts rest).map .one))], hmatch,
      .cons ⟨rfl, htest⟩ (.cons ⟨rfl, hnext⟩ (.cons ⟨rfl, hrest⟩ .nil)), ?_⟩
    exact draw_template (.core rfl (.variable_one rfl (.list (.core rfl (.variable_one rfl
      (.variable_last rfl))) .nil)))
  | cons d vs =>
    obtain ⟨hd, hvs⟩ := List.forall_mem_cons.mp hguests
    have hmatch : firstMatch? s v condForm.rules = some (condForm.rules[7],
        [(.user "test", .one test), (.user "result1", .one next),
          (.user "result2", .many (rest.map .one)), (.user "clause1", .one d),
          (.user "clause2", .many (vs.map .one))]) := by
      match rest with
      | [] | _ :: _ :: _ => simp_all [condForm]
      | [receiver] => simp_all [condForm]
    refine ⟨_, _, [(.user "test", .one (.part test)), (.user "result1", .one (.part next)),
      (.user "result2", .many ((parts rest).map .one)), (.user "clause1", .one (.part d)),
      (.user "clause2", .many ((parts vs).map .one))], hmatch,
      .cons ⟨rfl, htest⟩ (.cons ⟨rfl, hnext⟩ (.cons ⟨rfl, hrest⟩ (.cons ⟨rfl, fits_part hd⟩
        (.cons ⟨rfl, fits_parts hvs⟩ .nil)))), ?_⟩
    exact draw_template (.core rfl (.variable_one rfl (.list (.core rfl (.variable_one rfl
      (.variable_last rfl))) (.list
        (.identifier hcond (.variable_one rfl (.variable_last rfl))) .nil))))

theorem cond_draws_receive (hitems : s.properList? clause = some [test, next, receiver])
    (helse : (vs.isEmpty && test.isNamed "else") = false) (harrow : next.isNamed "=>")
    (hclause : ∀ w ∈ [test, next, receiver], s.Guest own w)
    (hlet : introduce ⟨condForm, env, s.phase, s.uses⟩ s (.user "let") = .user "let")
    (hx : introduce ⟨condForm, env, s.phase, s.uses⟩ s (.user "temp") = x) :
    Drawn env condForm s own v (.form "let" [.list [.list [.atom (.symbol x), .part test]],
      .form "if" (.atom (.symbol x) :: .list [.part receiver, .atom (.symbol x)] ::
        further vs)]) := by
  have htest := fits_part (hclause _ (.head _))
  have hreceiver := fits_part (hclause receiver (by simp))
  cases vs with
  | nil =>
    have hmatch : firstMatch? s v condForm.rules = some (condForm.rules[2],
        [(.user "test", .one test), (.user "result", .one receiver)]) := by
      simp_all [condForm]
    refine ⟨_, _,
      [(.user "test", .one (.part test)), (.user "result", .one (.part receiver))], hmatch,
      .cons ⟨rfl, htest⟩ (.cons ⟨rfl, hreceiver⟩ .nil), ?_⟩
    exact draw_template (.identifier hlet
      (.list (.list (.identifier hx (.variable_one rfl .nil)) .nil)
      (.list
        (.core rfl (.identifier hx (.list (.variable_one rfl (.identifier hx .nil)) .nil))) .nil)))
  | cons d vs =>
    obtain ⟨hd, hvs⟩ := List.forall_mem_cons.mp hguests
    have hmatch : firstMatch? s v condForm.rules = some (condForm.rules[3],
        [(.user "test", .one test), (.user "result", .one receiver), (.user "clause1", .one d),
          (.user "clause2", .many (vs.map .one))]) := by
      simp_all [condForm]
    refine ⟨_, _, [(.user "test", .one (.part test)), (.user "result", .one (.part receiver)),
      (.user "clause1", .one (.part d)), (.user "clause2", .many ((parts vs).map .one))], hmatch,
      .cons ⟨rfl, htest⟩ (.cons ⟨rfl, hreceiver⟩ (.cons ⟨rfl, fits_part hd⟩
        (.cons ⟨rfl, fits_parts hvs⟩ .nil))), ?_⟩
    exact draw_template (.identifier hlet
      (.list (.list (.identifier hx (.variable_one rfl .nil)) .nil)
      (.list (.core rfl (.identifier hx (.list (.variable_one rfl (.identifier hx .nil))
        (.list (.identifier hcond (.variable_one rfl (.variable_last rfl))) .nil)))) .nil)))

/-- A test that is not the last clause is held, since its value may be wanted. -/
theorem cond_draws_bare (hvs : vs ≠ []) (hitems : s.properList? clause = some [test])
    (hclause : s.Guest own test)
    (hlet : introduce ⟨condForm, env, s.phase, s.uses⟩ s (.user "let") = .user "let")
    (hx : introduce ⟨condForm, env, s.phase, s.uses⟩ s (.user "temp") = x) :
    Drawn env condForm s own v (.form "let" [.list [.list [.atom (.symbol x), .part test]],
      .form "if" (.atom (.symbol x) :: .atom (.symbol x) :: further vs)]) := by
  cases vs with
  | nil => exact absurd rfl hvs
  | cons d vs =>
    obtain ⟨hd, hvs⟩ := List.forall_mem_cons.mp hguests
    have hmatch : firstMatch? s v condForm.rules = some (condForm.rules[5],
        [(.user "test", .one test), (.user "clause1", .one d),
          (.user "clause2", .many (vs.map .one))]) := by
      simp [condForm, hproper, hitems]
    refine ⟨_, _, [(.user "test", .one (.part test)), (.user "clause1", .one (.part d)),
      (.user "clause2", .many ((parts vs).map .one))], hmatch,
      .cons ⟨rfl, fits_part hclause⟩ (.cons ⟨rfl, fits_part hd⟩
        (.cons ⟨rfl, fits_parts hvs⟩ .nil)), ?_⟩
    exact draw_template (.identifier hlet
      (.list (.list (.identifier hx (.variable_one rfl .nil)) .nil)
      (.list (.core rfl (.identifier hx (.identifier hx
        (.list (.identifier hcond (.variable_one rfl (.variable_last rfl))) .nil)))) .nil)))

omit hguests hcond

theorem cond_draws_last (hvs : vs = []) (hitems : s.properList? clause = some [test])
    (hclause : s.Guest own test) : Drawn env condForm s own v (.part test) := by
  subst hvs
  have hmatch : firstMatch? s v condForm.rules = some (condForm.rules[4],
      [(.user "test", .one test)]) := by
    simp [condForm, hproper, hitems]
  exact ⟨_, _, [(.user "test", .one (.part test))], hmatch,
    .cons ⟨rfl, fits_part hclause⟩ .nil, rfl⟩

end Rules

section Reading

variable (hs : s.Safe own) (hst : s.Adds own t more)

include hs hst

theorem clause?_adds (hv : s.Guest own v) (isLast : Bool) :
    t.clause? isLast v = s.clause? isLast v := by
  rw [clause?, clause?, properList?_grows hs.known hv.known hst.expands.toGrows]

theorem clauses?_adds (hvs : ∀ v ∈ vs, s.Guest own v) : t.clauses? vs = s.clauses? vs := by
  induction vs with
  | nil => rfl
  | cons v vs ih =>
    obtain ⟨hv, hvs⟩ := List.forall_mem_cons.mp hvs
    rw [clauses?, clauses?, clause?_adds hs hst hv, ih hvs]

theorem receives_adds (hvs : ∀ v ∈ vs, s.Guest own v) (h : t.Receives vs w) : s.Receives vs w := by
  obtain ⟨before, v, after, test, rfl, hk⟩ := h
  refine ⟨before, v, after, test, rfl, ?_⟩
  rwa [← clause?_adds hs hst (hvs v (by simp))]

end Reading

theorem length_clauses? {ks : List Clause} (h : s.clauses? vs = some ks) :
    ks.length = vs.length := by
  induction vs generalizing ks with
  | nil =>
    cases h
    rfl
  | cons v vs ih =>
    obtain ⟨k, -, h⟩ := Option.bind_eq_some_iff.mp h
    obtain ⟨ks, hks, h⟩ := Option.bind_eq_some_iff.mp h
    cases h
    exact congrArg Nat.succ (ih hks)

structure Selected (env : Environment) (last s : Store) (vs : List Value) (ks : List Clause)
    (bs : List (Symbol × Clause)) : Prop where
  read : s.clauses? vs = some ks
  compiles : List.Forall₂ (fun k b => k.Compiles (Becomes env s last) b.2) ks bs
  stamped : ∀ b ∈ bs, b.1.isStamped
  elseLast : ElseLast bs

theorem Selected.isEmpty {ks : List Clause} {bs : List (Symbol × Clause)}
    (h : Selected env last s vs ks bs) : bs.isEmpty = vs.isEmpty := by
  have hlength := h.compiles.length_eq.symm.trans (length_clauses? h.read)
  rw [Bool.eq_iff_iff, List.isEmpty_iff_length_eq_zero, List.isEmpty_iff_length_eq_zero, hlength]

theorem Selected.nil : Selected env last s [] [] [] where
  read := by rw [clauses?]
  compiles := .nil
  stamped _ hb := absurd hb List.not_mem_nil
  elseLast := trivial

theorem Selected.cons {k k' : Clause} {ks : List Clause} {bs : List (Symbol × Clause)}
    (hk : s.clause? vs.isEmpty v = some k) (hcompiles : k.Compiles (Becomes env s last) k')
    (hx : x.isStamped) (h : Selected env last s vs ks bs) :
    Selected env last s (v :: vs) (k :: ks) ((x, k') :: bs) where
  read := by
    rw [clauses?, hk, h.read]
    rfl
  compiles := .cons hcompiles h.compiles
  stamped := List.forall_mem_cons.mpr ⟨hx, h.stamped⟩
  elseLast := by
    cases hcompiles with
    | otherwise =>
      obtain ⟨items, -, hitems⟩ := Option.bind_eq_some_iff.mp hk
      rw [ElseLast, ← List.isEmpty_iff, h.isEmpty]
      exact Clause.last_of_otherwise hitems
    | _ => exact h.elseLast

theorem Selected.earlier {ks : List Clause} {bs : List (Symbol × Clause)}
    (h : Selected env last t vs ks bs) (hs : s.Safe own) (hst : s.Adds own t more)
    (hvs : ∀ v ∈ vs, s.Guest own v) : Selected env last s vs ks bs where
  read := (clauses?_adds hs hst hvs).symm.trans h.read
  compiles := h.compiles.imp fun _ _ hk => hk.mono fun _ _ hw => hw.earlier hst.expands
  stamped := h.stamped
  elseLast := h.elseLast

def Selection (env : Environment) (last s : Store) (vs : List Value) (U : Sketch) : Prop :=
  ∃ ks bs, U = selects bs ∧ Selected env last s vs ks bs

theorem drafts_further
    (h : vs ≠ [] → Drafts env last own s (.form "cond" (parts vs)) (Selection env last t vs)) :
    ∃ Rs, List.Forall₂ (Drafts env last own s) (further vs) Rs ∧
      ∀ Us, List.Forall₂ (fun (Q : Sketch → Prop) U => Q U) Rs Us →
        ∃ ks bs, Us = (if bs.isEmpty then [] else [selects bs]) ∧ Selected env last t vs ks bs := by
  cases vs with
  | nil =>
    refine ⟨[], .nil, fun Us hUs => ?_⟩
    cases hUs
    exact ⟨[], [], rfl, .nil⟩
  | cons v vs =>
    refine ⟨_, .cons (h (by simp)) .nil, fun Us hUs => ?_⟩
    cases hUs with
    | cons hU hUs =>
      cases hUs
      obtain ⟨ks, bs, rfl, hselected⟩ := hU
      refine ⟨ks, bs, ?_, hselected⟩
      rw [hselected.isEmpty]
      rfl

theorem drafts_applied {receiver : Value} (h : ∀ y : Symbol, receiver = .symbol y →
      last.transformer? y.name env.chain = none ∧ isCoreKeyword y.name = false) :
    Drafts env last own s (.list [.part receiver, .atom (.symbol x)])
      fun U => ∃ r, U = .list [.part r, .atom (.symbol x)] ∧ Becomes env s last receiver r := by
  have hinert : Inert env last [.part receiver, .atom (.symbol x)] := by
    rintro y (hy | hy)
    · cases hy
    · cases hy
      obtain ⟨hnone, hcore⟩ := h y rfl
      exact ⟨hnone, .inr (Expansion.coreHead_of_not_core (by simp [hcore]) _)⟩
  refine (Drafts.list hinert (.cons .part (.cons .atom .nil))).mono ?_
  rintro U ⟨Us, rfl, hUs⟩
  cases hUs with
  | cons hr hUs =>
    cases hUs with
    | cons hx hUs =>
      cases hUs
      obtain ⟨r, rfl, hr⟩ := hr
      obtain rfl := hx
      exact ⟨r, rfl, hr⟩

section Replacing

variable (ht : t.Safe own) (hstanding : Standing env last t)
  (hproper : t.properList? v = some (head :: clause :: vs)) (hvs : ∀ w ∈ vs, t.Guest own w)
  (htemp : last.transformer? "temp" env.chain = none)
  (hrest : vs ≠ [] → ∀ ⦃u more⦄, t.Adds own u more →
    Drafts env last more u (.form "cond" (parts vs)) (Selection env last t vs))
  {test next receiver : Value} {rest : List Value}

theorem selection_cons {k k' : Clause} {ks : List Clause} {bs : List (Symbol × Clause)}
    (hk : t.clause? vs.isEmpty clause = some k) (hcompiles : k.Compiles (Becomes env t last) k')
    (hx : x.isStamped) (h : Selected env last t vs ks bs) (hU : U = selects ((x, k') :: bs)) :
    Selection env last t (clause :: vs) U := ⟨_, _, hU, h.cons hk hcompiles hx⟩

include hproper

theorem replaces_last (hnil : vs = []) (hitems : t.properList? clause = some [test])
    (hguest : t.Guest own test) :
    Replaces env last condForm t own v (Selection env last t (clause :: vs)) := by
  refine Drawn.replaces (fun _ => cond_draws_last hproper hnil hitems hguest) ?_
  intro _ u more hst
  refine Drafts.part.mono ?_
  rintro U ⟨w, rfl, hw⟩
  subst hnil
  have hread : t.clause? ([] : List Value).isEmpty clause = some (.bare test) := by
    rw [clause?, hitems]
    rfl
  exact selection_cons (x := ⟨"temp", t.phase, t.uses⟩) hread (.bare (hw.earlier hst.expands))
    stamped_of_use .nil rfl

include hstanding

theorem replaces_otherwise (hnil : vs = [])
    (hitems : t.properList? clause = some (test :: next :: rest)) (helse : test.isNamed "else")
    (hguests : ∀ w ∈ test :: next :: rest, t.Guest own w) :
    Replaces env last condForm t own v (Selection env last t (clause :: vs)) := by
  refine Drawn.replaces (fun _ => cond_draws_otherwise hproper hnil hitems helse hguests) ?_
  intro _ u more hst
  refine (drafts_sequence (hstanding.later hst)).mono ?_
  rintro U ⟨ws, rfl, hws⟩
  subst hnil
  have hread : t.clause? ([] : List Value).isEmpty clause = some (.otherwise (next :: rest)) := by
    rw [clause?, hitems]
    exact Clause.ofItems?_otherwise helse
  exact selection_cons (x := ⟨"temp", t.phase, t.uses⟩) hread
    (.otherwise (hws.imp fun _ _ hw => hw.earlier hst.expands)) stamped_of_use .nil rfl

include hvs hrest

theorem replaces_plain (hitems : t.properList? clause = some (test :: next :: rest))
    (helse : (vs.isEmpty && test.isNamed "else") = false)
    (harrow : ∀ receiver, rest = [receiver] → next.isNamed "=>" = false)
    (hguests : ∀ w ∈ test :: next :: rest, t.Guest own w) :
    Replaces env last condForm t own v (Selection env last t (clause :: vs)) := by
  have hm : condForm ∈ forms := by simp [forms]
  refine Drawn.replaces (fun hlast => cond_draws_plain hproper hvs
    (hstanding.introduce_form hm rfl hlast) hitems helse harrow hguests) ?_
  intro _ u more hst
  have hlater := hstanding.later hst
  obtain ⟨Rs, hRs, hmore⟩ := drafts_further (t := t) fun hne => hrest hne hst
  refine (drafts_branch hlater .part (drafts_sequence hlater) hRs).mono ?_
  rintro U ⟨_, _, Us, rfl, ⟨w, rfl, hw⟩, ⟨ws, rfl, hws⟩, hUs⟩
  obtain ⟨ks, bs, rfl, hselected⟩ := hmore _ hUs
  have hread : t.clause? vs.isEmpty clause = some (.plain test (next :: rest)) := by
    rw [clause?, hitems]
    exact Clause.ofItems?_plain helse harrow
  exact selection_cons (x := ⟨"temp", t.phase, t.uses⟩) hread (.plain (hw.earlier hst.expands)
    (hws.imp fun _ _ hw => hw.earlier hst.expands)) stamped_of_use hselected rfl

include htemp

theorem replaces_bare (hne : vs ≠ []) (hitems : t.properList? clause = some [test])
    (hguest : t.Guest own test) :
    Replaces env last condForm t own v (Selection env last t (clause :: vs)) := by
  have hcond : condForm ∈ forms := by simp [forms]
  have hlet : letForm ∈ forms := by simp [forms]
  refine Drawn.replaces (fun hlast => cond_draws_bare hproper hvs
    (hstanding.introduce_form hcond rfl hlast) hne hitems hguest
    (hstanding.introduce_form hlet rfl hlast) (introduce_fresh rfl rfl rfl htemp hlast)) ?_
  intro _ u more hst
  have hlater := hstanding.later hst
  obtain ⟨Rs, hRs, hmore⟩ := drafts_further (t := t) fun hne => hrest hne hst
  refine (drafts_holding hlater (drafts_branch hlater .atom .atom hRs)).mono ?_
  rintro U ⟨w, C, rfl, hw, _, _, Us, rfl, rfl, rfl, hUs⟩
  obtain ⟨ks, bs, rfl, hselected⟩ := hmore _ hUs
  have hread : t.clause? vs.isEmpty clause = some (.bare test) := by
    rw [clause?, hitems]
    rfl
  refine selection_cons (x := ⟨"temp", t.phase, t.uses⟩) hread (.bare (hw.earlier hst.expands))
    stamped_of_use hselected ?_
  rw [selects, hselected.isEmpty]
  simp [hne]

theorem replaces_receive (hitems : t.properList? clause = some [test, next, receiver])
    (helse : (vs.isEmpty && test.isNamed "else") = false) (harrow : next.isNamed "=>")
    (hguests : ∀ w ∈ [test, next, receiver], t.Guest own w)
    (happlied : ∀ y : Symbol, receiver = .symbol y →
      last.transformer? y.name env.chain = none ∧ isCoreKeyword y.name = false) :
    Replaces env last condForm t own v (Selection env last t (clause :: vs)) := by
  have hcond : condForm ∈ forms := by simp [forms]
  have hlet : letForm ∈ forms := by simp [forms]
  refine Drawn.replaces (fun hlast => cond_draws_receive hproper hvs
    (hstanding.introduce_form hcond rfl hlast) hitems helse harrow hguests
    (hstanding.introduce_form hlet rfl hlast) (introduce_fresh rfl rfl rfl htemp hlast)) ?_
  intro _ u more hst
  have hlater := hstanding.later hst
  obtain ⟨Rs, hRs, hmore⟩ := drafts_further (t := t) fun hne => hrest hne hst
  refine (drafts_holding hlater
    (drafts_branch hlater .atom (drafts_applied happlied) hRs)).mono ?_
  rintro U ⟨w, C, rfl, hw, _, _, Us, rfl, rfl, ⟨r, rfl, hr⟩, hUs⟩
  obtain ⟨ks, bs, rfl, hselected⟩ := hmore _ hUs
  have hread : t.clause? vs.isEmpty clause = some (.receive test receiver) := by
    rw [clause?, hitems]
    exact Clause.ofItems?_receive helse harrow
  exact selection_cons hread (.receive (hw.earlier hst.expands) (hr.earlier hst.expands))
    stamped_of_use hselected rfl

theorem replaces_cond (ht : t.Safe own) (hclause : t.Guest own clause)
    (happlied : ∀ test r, t.clause? vs.isEmpty clause = some (.receive test r) →
      ∀ y : Symbol, r = .symbol y →
        last.transformer? y.name env.chain = none ∧ isCoreKeyword y.name = false) :
    Replaces env last condForm t own v (Selection env last t (clause :: vs)) := by
  cases hk : t.clause? vs.isEmpty clause with
  | none => exact replaces_of_none (cond_refuses hproper hk)
  | some k =>
    obtain ⟨items, hitems, hk'⟩ := Option.bind_eq_some_iff.mp hk
    have hguests := ht.items hclause hitems
    match items with
    | [] => cases hk'
    | [test] =>
      by_cases hne : vs = []
      · exact replaces_last hproper hne hitems (hguests _ (.head _))
      · exact replaces_bare hstanding hproper hvs htemp hrest hne hitems (hguests _ (.head _))
    | test :: next :: rest =>
      cases helse : vs.isEmpty && test.isNamed "else" with
      | true =>
        obtain ⟨hnil, hnamed⟩ := Bool.and_eq_true_iff.mp helse
        exact replaces_otherwise hstanding hproper (List.isEmpty_iff.mp hnil) hitems hnamed hguests
      | false =>
        by_cases harrow : ∃ receiver, rest = [receiver] ∧ next.isNamed "=>" = true
        · obtain ⟨receiver, rfl, hnext⟩ := harrow
          refine replaces_receive hstanding hproper hvs htemp hrest hitems helse hnext hguests ?_
          refine happlied test receiver ?_
          rw [clause?, hitems]
          exact Clause.ofItems?_receive helse hnext
        · refine replaces_plain hstanding hproper hvs hrest hitems helse ?_ hguests
          intro receiver hrest
          exact Bool.eq_false_iff.mpr fun hnext => harrow ⟨receiver, hrest, hnext⟩

end Replacing

theorem drafts_cond (hs : s.Safe own) (hstanding : Standing env last s)
    (htemp : last.transformer? "temp" env.chain = none) (hguests : ∀ v ∈ vs, s.Guest own v)
    (happlied : ∀ r, s.Receives vs r → ∀ y : Symbol, r = .symbol y →
      last.transformer? y.name env.chain = none ∧ isCoreKeyword y.name = false)
    (hreads : Reads own s T (H :: parts vs))
    (hH : H = .atom (.symbol x) ∨ H = .part (.symbol x)) (hx : x.name = "cond") :
    Drafts env last own s T
      (Selection env last s vs) := by
  have hm : condForm ∈ forms := by simp [forms]
  induction vs generalizing s own T H x with
  | nil =>
    refine .use hstanding hm hreads hH hx ?_
    intro t more v vs hst hproper hvs
    cases hvs
    have hmatch : firstMatch? t v condForm.rules = some (condForm.rules[0], []) := by
      simp [condForm, hproper]
    refine Drawn.replaces (T := .form "if" [.atom (.bool false), .atom (.bool false)]) (fun _ =>
      ⟨_, _, [], hmatch, .nil, draw_template (.core rfl (.constant (.constant .nil)))⟩) ?_
    intro _ u most hadds
    refine (drafts_unspecified (hstanding.later (hst.trans hadds))).mono ?_
    rintro U rfl
    exact ⟨[], [], rfl, .nil⟩
  | cons clause vs ih =>
    obtain ⟨hclause, hvs⟩ := List.forall_mem_cons.mp hguests
    refine .use hstanding hm hreads hH hx ?_
    intro t more v vs' hst hproper hlooks
    obtain ⟨rfl, hguests'⟩ := lookAll_parts.mp hlooks
    obtain ⟨hclause', hvs'⟩ := List.forall_mem_cons.mp hguests'
    have hlater := hstanding.later hst
    have happlied' : ∀ r, t.Receives (clause :: vs) r → ∀ y : Symbol, r = .symbol y →
        last.transformer? y.name env.chain = none ∧ isCoreKeyword y.name = false :=
      fun r hr => happlied r (receives_adds hs hst hguests hr)
    have hreplaces := replaces_cond hlater hproper hvs' htemp ?_ hst.safe hclause'
      fun test r hr => happlied' r ⟨[], clause, vs, test, rfl, hr⟩
    · refine hreplaces.mono ?_
      rintro U ⟨ks, bs, hU, hselected⟩
      exact ⟨ks, bs, hU, hselected.earlier hs hst hguests⟩
    · intro hne u most htu
      refine (ih htu.safe (hlater.later htu) (fun w hw => htu.guest (hvs' w hw)) ?_ reads_list
        (.inl rfl) rfl).mono ?_
      · exact fun r hr => happlied' r (receives_adds hst.safe htu hvs' hr).more
      · rintro U ⟨ks, bs, hU, hselected⟩
        exact ⟨ks, bs, hU, hselected.earlier hst.safe htu hvs'⟩

end Derived

end HygienicScheme
