import HygienicScheme.Proofs.Derived.Cases
import HygienicScheme.Proofs.Derived.Selection
import HygienicScheme.Proofs.Primitives.Lists
import HygienicScheme.Proofs.Store.Spines

/-!
# Choosing by a key

What a `case` form becomes evaluates the key once, and asks from the first clause on whether the
value is among the data of the clause. The questions change nothing.

A `case` form whose key is a list becomes the call of a procedure that holds the value of the key.
The list is copied on the way, so what is evaluated comes of a new list with the same items.
-/
namespace HygienicScheme

open Expansion (firstMatch? maxUses)

/-! ### Expanding `case` forms with a key to evaluate -/

namespace MacroUse

variable {u : MacroUse} {bs : Bindings} {x : Symbol} {v : Value} {vs : List Value}

theorem transcribe_variable (h : bs.lookup x = some (.one v)) :
    u.transcribe (.variable x) bs = pure v := by
  rw [transcribe, h]

theorem transcribe_free : u.transcribe (.free x) bs =
    (do return .symbol (← Action.inspect (u.introduce · x))) := by
  rw [transcribe]

theorem transcribe_list {items : TemplateSeq} : u.transcribe (.list items) bs = (do
    let (items, tail) ← u.transcribeItems items bs
    Build.listWithTail items tail) := by
  rw [transcribe]

theorem repeated_single {vars : List Symbol} {emit : Bindings → Action Value} :
    u.repeated vars emit 0 bs = (do return [← emit bs]) := rfl

theorem repeated_variable (h : bs.lookup x = some (.many (vs.map .one))) :
    u.repeated (Template.variable x).vars (u.transcribe (.variable x)) 1 bs = pure vs := by
  have hdrivers : drivers (Template.variable x).vars bs = [(x, vs.map .one)] := by
    simp [drivers, Template.vars, Template.occurrences, distinct, h]
  have hrounds : ∀ vs : List Value, (rounds vs.length [(x, vs.map .one)]).mapM (fun row =>
      u.repeated (Template.variable x).vars (u.transcribe (.variable x)) 0 (row ++ bs)) =
        (pure (vs.map fun v => [v]) : Action (List (List Value))) := by
    intro vs
    induction vs with
    | nil => rfl
    | cons v vs ih =>
      simp only [List.length_cons, rounds, List.map_cons, List.filterMap_cons, List.head?_cons,
        List.tail_cons, List.mapM_cons, List.filterMap_nil, Option.map_some, List.map_nil]
      rw [ih]
      simp [repeated, transcribe]
  rw [repeated, hdrivers]
  simp only [List.find?_nil, List.length_map]
  rw [hrounds, pure_bind, ← List.flatMap_def, ← List.map_eq_flatMap, List.map_id']

end MacroUse

namespace Derived

open Store Sketch MacroUse SyntaxRules

variable {env : Environment} {last s t : Store} {own more : Reserve} {v w key : Value}
  {H T U : Sketch} {vs keys : List Value} {x : Symbol} {use : MacroUse}

def keyed : Template :=
  template [brings "let", nested [nested [brings "atom-key", puts "key"]],
    nested [brings "case", brings "atom-key", putsAll "clauses"]]

theorem constants_keyed : ∀ c ∈ keyed.constants, c.isConstant ∧ ∀ a, c ≠ .closure a := by
  simp [keyed, template, brings, puts, putsAll, nested, Template.constants, TemplateSeq.constants]

theorem frames_list (items : List Value) (s : Store) :
    (Build.list items s).2.frames = s.frames := by
  have hrest := congrArg Store.frames (Build.listWithTail_rest items .null s)
  exact hrest

theorem draw_keyed {introduced : Symbol → Symbol} (hlet : introduced (.user "let") = .user "let")
    (hcase : introduced (.user "case") = .user "case") (hx : introduced (.user "atom-key") = x) :
    keyed.draw introduced
      [(.user "key", .one (.part key)), (.user "clauses", .many ((parts vs).map .one))] =
    some (.form "let" [.list [.list [.atom (.symbol x), .part key]],
      .form "case" (.atom (.symbol x) :: parts vs)]) :=
  draw_template (.identifier hlet (.list (.list (.identifier hx (.variable_one rfl .nil)) .nil)
    (.list (.identifier hcase (.identifier hx (.variable_last rfl))) .nil)))

theorem transcribe_key (s : Store) : use.transcribe caseForm.rules[0].template
      [(.user "key", .many (keys.map .one)), (.user "clauses", .many (vs.map .one))] s =
    use.transcribe keyed [(.user "key", .one (Build.list keys s).1),
      (.user "clauses", .many (vs.map .one))] (Build.list keys s).2 := by
  have hkey : ∀ b : Binding, List.lookup (Symbol.user "key") [(Symbol.user "key", b),
      (.user "clauses", .many (vs.map .one))] = some b := fun _ => rfl
  have hclauses : ∀ b : Binding, List.lookup (Symbol.user "clauses") [(Symbol.user "key", b),
      (.user "clauses", .many (vs.map .one))] = some (.many (vs.map .one)) := fun _ => rfl
  have hframes := frames_list keys s
  have hmade : ∀ {f : Value → Action Value}, ((liftM (Build.listWithTail keys .null) :
      Action Value) >>= f) s = f (Build.list keys s).1 (Build.list keys s).2 := rfl
  simp only [keyed, caseForm, template, nested, brings, puts, putsAll, transcribe_list,
    transcribe_free, transcribeItems, List.getElem_cons_zero, List.foldr, repeated_single,
    bind_assoc, pure_bind, Action.inspect_bind, repeated_variable (hkey _),
    repeated_variable (hclauses _), transcribe_variable (hkey _), List.append_nil]
  rw [hmade, introduce_congr hframes, introduce_congr hframes]

def BecomesList (env : Environment) (s last : Store) (items : List Value) (w : Value) : Prop :=
  ∃ t k, s.Expands t ∧ t.properList? k = some items ∧ Becomes env t last k w

structure Keyed (env : Environment) (last s : Store) (keys vs : List Value) (x : Symbol)
    (key : Value) (as : List Arm) (bs : List (Symbol × Arm)) : Prop where
  key : BecomesList env s last keys key
  stamped : x.isStamped
  named : x.name = "atom-key"
  armed : Armed env last s vs as bs

theorem guest_list (hs : s.Safe own) (hkeys : ∀ v ∈ keys, s.Guest own v) :
    s.Adds own (Build.list keys s).2 own ∧ (Build.list keys s).2.Guest own (Build.list keys s).1 ∧
      (Build.list keys s).2.properList? (Build.list keys s).1 = some keys := by
  have hsecluded := (secluding own).holds_listWithTail hs.secludes (fun v hv => (hkeys v hv).apart)
    (secluding own).null
  have hknown := knowing.holds_listWithTail hs.known (fun v hv => (hkeys v hv).known) knowing.null
  refine ⟨⟨.of_kept hsecluded.1 hknown.1, Build.expanding_list keys s⟩,
    ⟨hknown.2, hsecluded.2⟩, ?_⟩
  exact Store.properList?_eq_some.mpr ((Build.listWithTail_spine keys .null s).2.chain nofun)

/-- A `case` form whose key is a list becomes the call of a procedure that holds the value of the
key, and chooses among the clauses. -/
theorem drafts_keyed (hs : s.Safe own) (hstanding : Standing env last s)
    (hmemv : last.transformer? "memv" env.chain = none)
    (hname : last.transformer? "atom-key" env.chain = none) (hkey : s.Guest own key)
    (hkeys : s.properList? key = some keys) (hguests : ∀ v ∈ vs, s.Guest own v)
    (hreads : Reads own s T (H :: .part key :: parts vs))
    (hH : H = .atom (.symbol x) ∨ H = .part (.symbol x)) (hx : x.name = "case") :
    Drafts env last own s T fun U => ∃ y key as bs, U = .holding y (chooses y bs) key ∧
      Keyed env last s keys vs y key as bs := by
  have hcase : caseForm ∈ forms := by simp [forms]
  have hlet : letForm ∈ forms := by simp [forms]
  refine .rewritten hstanding hcase hreads hH hx ?_
  intro t more v vs' hst hproper hlooks w t' htranscribe huses hlast
  cases hlooks with
  | @cons k _ clauses _ hlook hlooks =>
    obtain rfl := hlook.eq_of_part
    obtain ⟨rfl, hclauses⟩ := lookAll_parts.mp hlooks
    have hlist := (properList?_grows hs.known hkey.known hst.expands.toGrows).trans hkeys
    have hmatch : firstMatch? t v caseForm.rules = some (caseForm.rules[0],
        [(.user "key", .many (keys.map .one)), (.user "clauses", .many (clauses.map .one))]) := by
      simp [caseForm, hproper, hlist]
    rw [Expansion.transcribe_found hmatch] at htranscribe
    obtain ⟨use, t₁, hnext, htranscribe⟩ := Action.ok_of_bind htranscribe
    cases hnext
    -- The use gets a stamp of its own, which no identifier in the store has yet.
    have hsafe := hst.safe
    have hstamped := hsafe.secludes.withStamp hsafe.known huses
    have hused : t.Adds more { t with uses := min (t.uses + 1) maxUses }
        (more.withStamp t.phase t.uses) := ⟨hstamped, .of_grows (.of_cells_eq rfl rfl) rfl rfl rfl⟩
    have hframes : ({ t with uses := min (t.uses + 1) maxUses } : Store).frames = t.frames := rfl
    have hstamps : (more.withStamp t.phase t.uses).stamps t.phase t.uses := .inl ⟨rfl, rfl⟩
    generalize ({ t with uses := min (t.uses + 1) maxUses } : Store) = t₁ at *
    -- The key is copied before the template is filled in.
    obtain ⟨hmade, hguest, hcopy⟩ := guest_list hused.safe fun v hv =>
      hused.guest (hsafe.items hlook.guest hlist v hv)
    have hmore := hused.trans hmade
    have hlets : introduce ⟨caseForm, env, t.phase, t.uses⟩ t (.user letForm.name) =
        .user letForm.name := (hstanding.later hst).introduce_form hlet rfl hlast
    have hcases : introduce ⟨caseForm, env, t.phase, t.uses⟩ t (.user caseForm.name) =
        .user caseForm.name := (hstanding.later hst).introduce_form hcase rfl hlast
    have hfresh : introduce ⟨caseForm, env, t.phase, t.uses⟩ t (.user "atom-key") =
        ⟨"atom-key", t.phase, t.uses⟩ := introduce_fresh rfl rfl rfl hname hlast
    have hfits : (Build.list keys t₁).2.FitsEach (more.withStamp t.phase t.uses)
        [(.user "key", .one (Build.list keys t₁).1), (.user "clauses", .many (clauses.map .one))]
        [(.user "key", .one (.part (Build.list keys t₁).1)),
          (.user "clauses", .many ((parts clauses).map .one))] :=
      .cons ⟨rfl, fits_part hguest⟩
        (.cons ⟨rfl, fits_parts fun w hw => hmore.guest (hclauses w hw)⟩ .nil)
    have hkeyed := (transcribe_key t₁).symm.trans htranscribe
    obtain ⟨-, most, hdrawn, hlooks'⟩ := draws_transcribe keyed constants_keyed
      ((frames_list keys t₁).trans hframes) hmade.safe hstamps hfits
        (draw_keyed hlets hcases hfresh)
      hkeyed
    -- What was drawn holds the key and chooses by a `case` form whose key is an identifier.
    have hall := hmore.trans hdrawn
    have hlater := hstanding.later (hst.trans hall)
    refine ⟨most, _, hall, hlooks', (drafts_holding hlater (drafts_case hdrawn.safe hlater hmemv
      fun w hw => hall.guest (hclauses w hw))).mono ?_⟩
    rintro U ⟨w, C, rfl, hw, as, bs, rfl, harmed⟩
    refine ⟨_, w, as, bs, rfl, ?_, stamped_of_use, rfl,
      harmed.earlier hs (hst.trans hall) hguests⟩
    exact ⟨_, _, (hst.trans hmore).expands, hcopy, hw.earlier hdrawn.expands⟩

end Derived

/-! ### What the call answers -/

open Machine Run Store Sketch

namespace Listing

variable {s : Store} {v rest : Value} {items : List Value} {n : Nat} {procedure : String}

theorem findTail_identical (h : s.Chain rest items .null) (hn : items.length < n) :
    ∃ answer, findTail procedure identical v n rest s = .ok answer s ∧
      answer.isTrue = items.any v.eqv := by
  induction n generalizing rest items with
  | zero => cases hn
  | succ n ih =>
    cases h with
    | tail => exact ⟨.bool false, rfl, rfl⟩
    | @pair a items _ h =>
      have hmatch : ∀ w, matching identical v w s = .ok (v.eqv w) s := fun _ => rfl
      rw [findTail, Action.inspect_bind, Action.bind_ok (hmatch _), List.any_cons]
      cases heqv : v.eqv (s.pairAt a).car with
      | true => exact ⟨.pair a, rfl, rfl⟩
      | false => exact ih h (Nat.lt_of_succ_lt_succ hn)

theorem memv_answers (h : s.properList? rest = some items) : ∃ answer,
    run .memv [v, rest] s = .ok answer s ∧ answer.isTrue = items.any v.eqv := by
  have hchain := properList?_eq_some.mp h
  have hlength := hchain.length_le
  have hbound : items.length < s.walkBound := by
    have hcells : items.length < s.cells + 2 := by
      unfold cells
      omega
    exact Nat.lt_of_lt_of_le hcells (Nat.le_mul_self _)
  change ∃ answer, memberBy "memv" identical v rest s = .ok answer s ∧ _
  rw [memberBy, Action.inspect_bind]
  exact findTail_identical hchain hbound

end Listing

def Value.memv : Value := .primitive (.routine (.listing .memv))

namespace Machine

variable {c : Context} {d : Nat} {env : Environment} {s s' t : Store} {r : Result}
  {own more : Reserve} {v test held : Value} {x : Symbol} {p : Lambda} {data : List Value}

def choose (c : Context) (d : Nat) (env : Environment) (held : Value) : List Arm → Run
  | [] => .done .unspecified
  | a :: more =>
    match a.data with
    | none => inOrder c d env a.body
    | some data => within c d (within c (d + 1)
        (if data.any held.eqv then inOrder c d env a.body else choose c d env held more))

theorem runs_question
    (h : s.Looks own v (.list [.atom (.name "memv"), .atom (.symbol x),
      .form "quote" [.list (parts data)]]))
    (hst : s.Reserves own t more) (hheld : t.bound? env.frame x = some held)
    (hmemv : t.lookup? env (.user "memv") = some .memv) : ∃ answer,
      answer.isTrue = data.any held.eqv ∧ ∀ r s', alone c d (.eval v env) t r s' ↔
        within c d (within c (d + 1) (Run.done answer)) t r s' := by
  obtain ⟨f, operands, vs, hf, hvs, happlication⟩ := h.application (by
    rintro y (hy | hy) <;> cases hy
    rfl)
  obtain rfl := hf.eq_of_atom
  cases hvs with
  | cons hkey hvs =>
    cases hvs with
    | @cons quoted _ _ _ hquoted hvs =>
      cases hvs
      obtain rfl := hkey.eq_of_atom
      obtain ⟨items, hitems, hspecial⟩ := hquoted.special (show _ = some SpecialForm.quote from rfl)
      cases hitems with
      | @cons list _ _ _ hlist hitems =>
        cases hitems
        obtain ⟨a, rfl, -⟩ := (happlication hst).1
        obtain ⟨b, rfl, -⟩ := hspecial hst
        have hdata : t.properList? list = some data := by
          cases hlist with
          | list hlist =>
            obtain ⟨vs, hvs, hproper⟩ := hlist.items
            obtain ⟨rfl, -⟩ := Derived.lookAll_parts.mp hvs
            exact hproper hst
        obtain ⟨answer, hrun, hanswer⟩ := Listing.memv_answers (v := held) hdata
        refine ⟨answer, hanswer, fun r s' => alone_nested.trans (within_congr ?_)⟩
        -- Operator and operands are evaluated in turn; none of them changes the store.
        have hoperator : ∀ r s', alone c (d + 1) (.eval (.name "memv") env) t r s' ↔
            Run.done .memv t r s' := fun r s' => alone_found hmemv
        have hoperands : ∀ f u, alone c (d + 1) (.eval (.name "memv") env) t (.value f) u →
            u.properList? operands = some [.symbol x, .pair b] := by
          intro f u hf
          obtain ⟨-, rfl⟩ := (hoperator _ _).mp hf
          exact (happlication hst).2
        have hlist : ∀ r s', alone c (d + 1) (.eval (.pair b) env) t r s' ↔
            within c (d + 1) (Run.done list) t r s' :=
          fun r s' => alone_nested.trans (within_congr (alone_quote (hspecial hst)))
        have hcall : alone c (d + 1) (.apply .memv [held, list]) t r s' ↔
          Run.done answer t r s' := by
          have hstep : step c ⟨.apply .memv [held, list], [], d + 1, t⟩ =
              ⟨.value answer, [], d + 1, t⟩ := step_routine_ok rfl hrun
          rw [alone_step, hstep]
          exact comes_result (r := .value answer)
        rw [alone_application (happlication hst).1 hoperands,
          andThen_congr hoperator fun _ _ _ => Iff.rfl, andThen_done, valuesOf,
          andThen_congr (fun _ _ => alone_bound hheld) fun _ _ _ => Iff.rfl, andThen_done, valuesOf,
          andThen_congr hlist fun _ _ _ => Iff.rfl, within_andThen]
        refine within_congr ?_
        rw [andThen_done]
        exact hcall

abbrev asked (as : List Arm) : List (Symbol × Arm) := as.map (.user "memv", ·)

theorem runs_chooses {as : List Arm} (h : s.Looks own v (Derived.chooses x (asked as)))
    (hst : s.Reserves own t more) (hheld : t.bound? env.frame x = some held)
    (hmemv : t.lookup? env (.user "memv") = some .memv) :
    alone c d (.tail v env) t r s' ↔ choose c d env held as t r s' := by
  induction as generalizing v with
  | nil => exact runs_unspecified h hst c d env r s'
  | cons a as ih =>
    obtain ⟨data, body⟩ := a
    cases data with
    | none =>
      obtain ⟨vs, hvs, hruns⟩ := runs_sequence h
      obtain ⟨rfl, -⟩ := Derived.lookAll_parts.mp hvs
      exact hruns hst c d env r s'
    | some data =>
      have hlength : (if (asked as).isEmpty then [] else
          [Derived.chooses x (asked as)]).length ≤ 1 := by split <;> simp
      obtain ⟨question, yes, no, hquestion, hyes, hno, hbranch⟩ := runs_branch h hlength
      obtain ⟨vs, hvs, hbody⟩ := runs_sequence hyes
      obtain ⟨rfl, -⟩ := Derived.lookAll_parts.mp hvs
      obtain ⟨answer, hanswer, hasked⟩ := runs_question (c := c) (d := d) hquestion hst hheld hmemv
      have hrest : inOrder c d env no t r s' ↔ choose c d env held as t r s' := by
        cases as with
        | nil =>
          cases hno
          exact Iff.rfl
        | cons a as =>
          cases hno with
          | cons hrest hno =>
            cases hno
            exact ih hrest
      rw [hbranch hst, andThen_congr hasked fun _ _ _ => Iff.rfl, within_andThen, choose]
      refine within_congr ?_
      rw [within_andThen]
      refine within_congr ?_
      rw [andThen_done, hanswer]
      split
      · exact hbody hst c d env r s'
      · exact hrest

end Machine

namespace Derived

variable {env : Environment} {s u : Store} {as : List Arm} {bs : List (Symbol × Arm)}
  {bound : List Symbol} {x y z : Symbol} {vs : List Value} {W : Sketch} {w : Value}

theorem legible_chooses (h : ∀ b ∈ bs, b.1.isStamped ∧ b.1.name = "memv") :
    (chooses x bs).Legible := by
  induction bs with
  | nil => exact legible_form (.inl rfl) (by simp [Sketch.Legible.atom])
  | cons b bs ih =>
    obtain ⟨y, data, body⟩ := b
    obtain ⟨hy, hbs⟩ := List.forall_mem_cons.mp h
    have hbody : (Sketch.form "begin" (parts body)).Legible := legible_form (.inr rfl) legible_parts
    cases data with
    | none => exact hbody
    | some data =>
      have hquestion : (Sketch.list [.atom (.symbol y), .atom (.symbol x),
          .form "quote" [.list (parts data)]]).Legible :=
        .list (plain_stamped hy.1) (List.forall_mem_cons.mpr ⟨.atom nofun,
          List.forall_mem_cons.mpr ⟨.atom nofun, List.forall_mem_singleton.mpr .quote⟩⟩)
      refine legible_form (.inl rfl) (List.forall_mem_cons.mpr ⟨hquestion,
        List.forall_mem_cons.mpr ⟨hbody, fun T hT => ?_⟩⟩)
      cases bs with
      | nil => cases hT
      | cons b bs =>
        obtain rfl := List.mem_singleton.mp hT
        exact ih hbs

theorem not_binds_chooses (h : ∀ b ∈ bs, b.1.isStamped ∧ b.1.name = "memv") :
    ¬ (chooses x bs).Binds z := by
  induction bs with
  | nil =>
    rw [chooses, binds_form (.inl rfl)]
    simp [not_binds_atom]
  | cons b bs ih =>
    obtain ⟨y, data, body⟩ := b
    obtain ⟨hy, hbs⟩ := List.forall_mem_cons.mp h
    have hbody : ¬ (Sketch.form "begin" (parts body)).Binds z := by
      rw [binds_form (.inr rfl)]
      rintro ⟨T, hT, hbinds⟩
      obtain ⟨w, -, rfl⟩ := List.mem_map.mp hT
      cases hbinds
    cases data with
    | none => exact hbody
    | some data =>
      have hquestion : ¬ (Sketch.list [.atom (.symbol y), .atom (.symbol x),
          .form "quote" [.list (parts data)]]).Binds z := by
        rw [(plain_stamped hy.1).binds_iff]
        simp [not_binds_atom, not_binds_quote]
      rw [chooses, binds_form (.inl rfl)]
      rintro ⟨T, hT, hbinds⟩
      rcases List.mem_cons.mp hT with rfl | hT
      · exact hquestion hbinds
      · rcases List.mem_cons.mp hT with rfl | hT
        · exact hbody hbinds
        · cases bs with
          | nil => cases hT
          | cons b bs =>
            obtain rfl := List.mem_singleton.mp hT
            exact ih hbs hbinds

theorem settled_of_quote (h : Settled bound s u (.form "quote" [.list (parts vs)]) W) :
    ∃ ws, W = .form "quote" [.list (parts ws)] ∧
      List.Forall₂ (Treated Renaming.strip s u) vs ws := by
  generalize hT : Sketch.form "quote" [.list (parts vs)] = T at h
  cases h with
  | atom | part => cases hT
  | list hquote =>
    cases hT
    exact absurd rfl (hquote _)
  | @quote vs' ws h =>
    injection hT with hT
    injection hT with _ hT
    injection hT with hT
    injection hT with hT
    have hvs : vs = vs' := List.map_injective_iff.mpr (fun _ _ h => by injection h) hT
    exact ⟨ws, rfl, hvs ▸ h⟩

/-- The identifier `memv` loses its stamp, since nothing binds it. -/
theorem settledAtom_free (hy : y.isStamped) (hfree : y ∉ bound) :
    settledAtom bound (.symbol y) = .symbol (.user y.name) := by
  simp [settledAtom, hy, hfree, Symbol.unstamped]

theorem settled_chooses (hx : x ∈ bound) (hordered : DataBefore bs)
    (hbs : ∀ b ∈ bs, b.1.isStamped ∧ b.1.name = "memv")
    (hfree : ∀ b ∈ bs, b.2.data.isSome → b.1 ∉ bound) (h : Settled bound s u (chooses x bs) W) :
    ∃ as, W = chooses x (asked as) ∧ List.Forall₂ (fun b a =>
      b.2.Compiles (Treated Renaming.strip s u) (Treated (Renaming.code bound) s u) a) bs as := by
  induction bs generalizing W with
  | nil =>
    obtain rfl := settled_of_unspecified h
    exact ⟨[], rfl, .nil⟩
  | cons b bs ih =>
    obtain ⟨y, data, body⟩ := b
    obtain ⟨hy, hys⟩ := List.forall_mem_cons.mp hbs
    obtain ⟨hyfree, hfrees⟩ := List.forall_mem_cons.mp hfree
    cases data with
    | none =>
      obtain rfl : bs = [] := hordered
      obtain ⟨body', rfl, hbody⟩ := settled_of_sequence h
      exact ⟨[⟨none, body'⟩], rfl, .cons ⟨.none, hbody⟩ .nil⟩
    | some data =>
      obtain ⟨_, _, Us, rfl, hquestion, hsequence, hUs⟩ := settled_of_branch h
      obtain ⟨body', rfl, hbody⟩ := settled_of_sequence hsequence
      -- The name of the procedure has a stamp, so the question is no quotation.
      have hne : Sketch.atom (.symbol y) ≠ .atom (.name "quote") := by
        rintro ⟨⟩
        cases hy.1
      obtain ⟨Q, Qs, rfl, hQ, hQs⟩ := settled_of_list hne hquestion
      rcases hQs with _ | ⟨hkey, _ | ⟨hquote, _ | _⟩⟩
      obtain rfl := settled_of_atom hQ
      obtain rfl := settled_of_atom hkey
      obtain ⟨data', rfl, hdata⟩ := settled_of_quote hquote
      -- The key is bound and keeps its stamp, `memv` is free and loses it.
      rw [settledAtom_bound hx, settledAtom_free hy.1 (hyfree rfl), hy.2]
      have hcompiles : Arm.Compiles (Treated Renaming.strip s u)
          (Treated (Renaming.code bound) s u) ⟨some data, body⟩ ⟨some data', body'⟩ :=
        ⟨.some hdata, hbody⟩
      cases bs with
      | nil =>
        cases hUs
        exact ⟨[⟨some data', body'⟩], rfl, .cons hcompiles .nil⟩
      | cons b bs =>
        cases hUs with
        | cons hU hUs =>
          cases hUs
          obtain ⟨as, rfl, has⟩ := ih hordered hys hfrees hU
          refine ⟨⟨some data', body'⟩ :: as, ?_, .cons hcompiles has⟩
          cases has
          rfl

end Derived

end HygienicScheme
