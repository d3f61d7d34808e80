import HygienicScheme.Proofs.Derived.Answers
import HygienicScheme.Proofs.Derived.Choosing
import HygienicScheme.Proofs.Derived.Whole
import Mathlib

/-!
# Whole `case` forms

When a `case` form whose key is a list is expanded as a whole and its stamps are settled, what comes
of it evaluates the key once and chooses by its value among the clauses.
-/
namespace HygienicScheme

open Machine Run Store Sketch
open Expansion (expandToplevel expand started maxDepth)

namespace Machine

variable {c : Context} {d : Nat} {env : Environment} {s t : Store} {r : Result} {own : Reserve}
  {v test held : Value} {x : Symbol}

def MemvAfter (c : Context) (d : Nat) (env : Environment) (form : Value) (s : Store) : Prop :=
  ∀ v t, alone c d (.eval form env) s (.value v) t → t.lookup? env (.user "memv") = some .memv

theorem runs_keyed {as : List Arm} (hs : s.Safe own) (hx : x.isStamped)
    (h : s.Looks own v (.holding x (Derived.chooses x (asked as)) test)) :
    ∃ p : Lambda, p.params = [x] ∧ ∀ ⦃t more⦄, s.Reserves own t more → ∀ c d env r s',
      MemvAfter c d env test { t with closures := t.closures.push (p.closure env none) } →
        (alone c d (.tail v env) t r s' ↔
          holding c d env p test (fun held env' => choose c d env' held as) t r s') := by
  obtain ⟨p, body, hp, hbody, hruns⟩ := runs_holds hs h
  refine ⟨p, hp, fun t more hst c d env r s' hmemv => ?_⟩
  refine hruns hst c d env r s' _ fun held u most hvalue hu => ?_
  have hne : Symbol.user "memv" ≠ x := by
    rintro rfl
    cases hx
  have hmeans := (means_held u env held hx hne).1.trans (hmemv held u hvalue)
  exact runs_chooses hbody hu bound?_held hmeans

end Machine

namespace Derived

variable {env : Environment} {s t u last : Store} {own : Reserve} {v w key form : Value}
  {vs keys : List Value} {as : List Arm} {bs : List (Symbol × Arm)} {bound : List Symbol}
  {x y : Symbol}

theorem BecomesList.earlier {items : List Value} (h : BecomesList env t last items w)
    (hst : s.Expands t) : BecomesList env s last items w := by
  obtain ⟨t', k, ht, hlist, hk⟩ := h
  exact ⟨t', k, hst.trans ht, hlist, hk⟩

theorem BecomesList.later {items : List Value} (h : BecomesList env s last items w)
    (hu : last.Expands u) : BecomesList env s u items w := by
  obtain ⟨t', k, ht, hlist, hk⟩ := h
  exact ⟨t', k, ht, hlist, Becomes.later hk hu⟩

theorem has_question (hordered : DataBefore bs) {b : Symbol × Arm} (hb : b ∈ bs)
    (hdata : b.2.data.isSome) : (chooses x bs).Has (.atom (.symbol b.1)) := by
  induction bs with
  | nil => cases hb
  | cons b' bs ih =>
    obtain ⟨y, data, body⟩ := b'
    cases data with
    | none =>
      obtain rfl : bs = [] := hordered
      obtain rfl := List.mem_singleton.mp hb
      cases hdata
    | some data =>
      rcases List.mem_cons.mp hb with rfl | hb
      · exact .item (.tail _ (.head _)) (.item (.head _) .here)
      · cases bs with
        | nil => cases hb
        | cons b' bs => exact .item (.tail _ (.tail _ (.tail _ (.head _)))) (ih hordered hb)

theorem has_body (hordered : DataBefore bs) {b : Symbol × Arm} (hb : b ∈ bs) (hw : w ∈ b.2.body) :
    (chooses x bs).Has (.part w) := by
  induction bs with
  | nil => cases hb
  | cons b' bs ih =>
    obtain ⟨y, data, body⟩ := b'
    have hbody : ∀ {body : List Value}, w ∈ body →
      (Sketch.form "begin" (parts body)).Has (.part w) :=
      fun hw => .item (.tail _ (List.mem_map_of_mem hw)) .here
    cases data with
    | none =>
      obtain rfl : bs = [] := hordered
      obtain rfl := List.mem_singleton.mp hb
      exact hbody hw
    | some data =>
      rcases List.mem_cons.mp hb with rfl | hb
      · exact .item (.tail _ (.tail _ (.head _))) (hbody hw)
      · cases bs with
        | nil => cases hb
        | cons b' bs => exact .item (.tail _ (.tail _ (.tail _ (.head _)))) (ih hordered hb)

theorem dataBefore_of_compiled {D R : Value → Value → Prop} (hordered : DataBefore bs)
    (h : List.Forall₂ (fun b a => b.2.Compiles D R a) bs as) : DataBefore (asked as) := by
  induction h with
  | nil => trivial
  | @cons b a bs as hb h ih =>
    obtain ⟨y, data, body⟩ := b
    obtain ⟨data', body'⟩ := a
    have hdata := hb.data
    cases hdata with
    | none =>
      obtain rfl : bs = [] := hordered
      cases h
      rfl
    | some => exact ih hordered

theorem arms_trans {D D' R R' R'' : Value → Value → Prop} {a b c : Arm}
    (hD : ∀ v w, D v w → v = w) (hR : ∀ v v' v'', R v v' → R' v' v'' → R'' v v'')
    (h : a.Compiles D R b) (h' : b.Compiles D' R' c) : a.Compiles D' R'' c where
  data := by
    obtain ⟨data, body⟩ := a
    obtain ⟨data', body'⟩ := b
    have hdata := h.data
    cases hdata with
    | none => exact h'.data
    | some hdata =>
      obtain rfl := List.forall₂_eq_eq_eq ▸ hdata.imp hD
      exact h'.data
  body := forall₂_trans hR h.body h'.body

/-- The value evaluates the key once and chooses by what it is, with an identifier of its own to
hold it. -/
structure Chooses (env : Environment) (s u : Store) (keys vs : List Value) (own : Reserve)
    (bound : List Symbol) (as : List Arm) (p : Lambda) (test : Value) (arms : List Arm)
      (w : Value) :
    Prop where
  read : s.arms? vs = some as
  key : ∃ v, BecomesList env s u keys v ∧ Treated (Renaming.code bound) s u v test
  code : List.Forall₂ (Arm.Compiles (Treated Renaming.strip s u) (Code env bound s u)) as arms
  fresh : ∃ x, p.params = [x] ∧ own.Has (.symbol x) ∧ Fresh s u (test :: arms.flatMap (·.body)) x
  runs : ∀ ⦃t more⦄, u.Reserves own t more → ∀ c d env' r s',
    MemvAfter c d env' test { t with closures := t.closures.push (p.closure env' none) } →
      (alone c d (.tail w env') t r s' ↔
        Machine.holding c d env' p test (fun held env'' => choose c d env'' held arms) t r s')

section Whole

variable (hs : s.All s.Known) (hform : s.Known form)
  (hlist : s.properList? form = some (.symbol x :: key :: vs)) (hx : x.name = "case")
  (hkeys : s.properList? key = some keys) (hmemv : u.transformer? "memv" env.chain = none)
  (hname : u.transformer? "atom-key" env.chain = none)

include hs hform hlist hx hkeys hmemv hname

theorem keyed_of_expand (hexpand : expand env (maxDepth + 1) form (started s) = .ok v last)
    (hlast : last.Expands u) (hstanding : Standing env last (started s)) :
    ∃ own U, (started s).Adds .none last own ∧ last.Looks own v U ∧ U.Legible ∧
      ∃ y test as bs, U = .holding y (chooses y bs) test ∧ Keyed env u s keys vs y test as bs := by
  have hsafe : s.Safe .none := ⟨.none s, hs⟩
  have hguest : s.Guest .none form := ⟨hform, Reserve.not_has_none⟩
  have hstart := adds_started hs
  obtain ⟨-, hguests⟩ := List.forall_mem_cons.mp (hsafe.items hguest hlist)
  obtain ⟨hkey, hclauses⟩ := List.forall_mem_cons.mp hguests
  have hproper : (started s).properList? form = some (.symbol x :: key :: vs) :=
    (properList?_grows hs hform hstart.expands.toGrows).trans hlist
  have hkeys' : (started s).properList? key = some keys :=
    (properList?_grows hs hkey.known hstart.expands.toGrows).trans hkeys
  obtain ⟨own, U, hadds, hU, y, test, as, bs, rfl, hkeyed⟩ := drafts_keyed (H := .part (.symbol x))
    hstart.safe hstanding (hlast.transformer?_eq_none hmemv) (hlast.transformer?_eq_none hname)
    (hstart.guest hkey) hkeys' (fun v hv => hstart.guest (hclauses v hv))
    (reads_part hstart.safe (hstart.guest hguest) hproper) (.inr rfl) hx (.refl hstart.safe)
    (.part (hstart.guest hguest)) hexpand (.refl last)
  have harmed := hkeyed.armed.earlier hsafe hstart hclauses
  refine ⟨own, _, hadds, hU, legible_holding hkeyed.stamped (legible_chooses harmed.introduced),
    y, test, as, bs, rfl, (hkeyed.key.earlier hstart.expands).later hlast, hkeyed.stamped,
    hkeyed.named, harmed.read, ?_, harmed.introduced, harmed.ordered⟩
  exact harmed.compiles.imp fun _ _ ha => ha.mono (fun _ _ => id) fun _ _ hw => hw.later hlast

theorem case_chooses (hintact : Intact env s u) (h : expandToplevel env form s = .ok w u) :
    ∃ own bound as p test arms, u.Safe own ∧ Chooses env s u keys vs own bound as p test arms
      w := by
  obtain ⟨last, own, bound, U, W, hslast, hsafe, hW, ⟨y, test, as, bs, rfl, hkeyed⟩, hsettled,
    hhas⟩ :=
    expandToplevel_settles hintact h fun v last hexpand hlast hstanding =>
      keyed_of_expand hs hform hlist hx hkeys hmemv hname hexpand hlast hstanding
  have harmed := hkeyed.armed
  obtain ⟨hown, hnew, hbound⟩ := hhas y hkeyed.stamped
    (.item (.head _) (.item (.tail _ (.head _)) (.item (.head _) .here)))
  have hy : y ∈ bound := hbound.mpr (binds_holding.mpr (.inl rfl))
  have hfree : ∀ b ∈ bs, b.2.data.isSome → b.1 ∉ bound := by
    intro b hb hdata hmem
    obtain ⟨hstamped, hnamed⟩ := harmed.introduced b hb
    obtain ⟨-, -, hbinds⟩ := hhas b.1 hstamped
      (.item (.head _) (.item (.tail _ (.tail _ (.head _))) (has_question harmed.ordered hb hdata)))
    rcases binds_holding.mp (hbinds.mp hmem) with heq | hbinds
    · rw [heq, hkeyed.named] at hnamed
      simp at hnamed
    · exact not_binds_chooses harmed.introduced hbinds
  obtain ⟨test', C, rfl, htest, hC⟩ := settled_of_holding hkeyed.stamped hy hsettled
  obtain ⟨arms, rfl, hcompiled⟩ := settled_chooses hy harmed.ordered harmed.introduced hfree hC
  obtain ⟨p, hp, hruns⟩ := runs_keyed hsafe hkeyed.stamped hW
  refine ⟨own, bound, as, p, test', arms, hsafe, harmed.read,
    ⟨test, hkeyed.key, htest.earlier hslast⟩,
    ?_, ⟨y, hp, hown, fresh_of_guests hsafe.secludes hown hnew fun w hw => ?_⟩, hruns⟩
  · have htrans : ∀ v v' v'', Becomes env s u v v' → Treated (Renaming.code bound) last u v' v'' →
        Code env bound s u v v'' := fun v v' v'' hv hv' => ⟨v', hv, hv'.earlier hslast⟩
    refine forall₂_trans ?_ harmed.compiles hcompiled
    intro a b a' ha ha'
    have hquoted : b.2.Compiles (Treated Renaming.strip s u) (Treated (Renaming.code bound) last u)
        a' := ha'.mono (fun _ _ hd => hd.earlier hslast) fun _ _ => id
    exact arms_trans (fun _ _ => id) htrans ha hquoted
  · rcases List.mem_cons.mp hw with rfl | hw
    · exact hW.guest_of_has (.item (.tail _ (.head _)) .here)
    · obtain ⟨a, ha, hwa⟩ := List.mem_flatMap.mp hw
      have hordered := dataBefore_of_compiled harmed.ordered hcompiled
      exact hW.guest_of_has (.item (.head _) (.item (.tail _ (.tail _ (.head _)))
        (has_body hordered (List.mem_map_of_mem ha) hwa)))

end Whole

/-- What a whole `cond` form becomes selects by its tests, and what a whole `case` form with a key
to evaluate becomes chooses by the key. -/
theorem clauses_select (hs : s.All s.Known) (hform : s.Known form) (hintact : Intact env s u)
    (h : expandToplevel env form s = .ok w u) :
    (∀ x vs, s.properList? form = some (.symbol x :: vs) → x.name = "cond" →
      u.transformer? "temp" env.chain = none → Receivers env s u vs →
        ∃ own bound ks ps, u.Safe own ∧ Selects env s u vs own bound ks ps w) ∧
    ∀ x key keys vs, s.properList? form = some (.symbol x :: key :: vs) → x.name = "case" →
      s.properList? key = some keys → u.transformer? "memv" env.chain = none →
        u.transformer? "atom-key" env.chain = none →
          ∃ own bound as p test arms, u.Safe own ∧
            Chooses env s u keys vs own bound as p test arms w := by
  have hexpands : s.Expands u := (Expansion.expanding_expandToplevel env form).of_ok h
  constructor
  · intro x vs hlist hx htemp hreceivers
    exact cond_selects hs hform hexpands hlist hx htemp hreceivers hintact h
  · intro x key keys vs hlist hx hkeys hmemv hname
    exact case_chooses hs hform hlist hx hkeys hmemv hname hintact h

/-- `(cond (#f) (1 2))` -/
def bareTest : Datum := .list [.name "cond", .list [.bool false], .list [.int 1, .int 2]]

/-- `(case (if #t 2 1) ((1) 10) ((2) 20))` -/
def computedKey : Datum :=
  .list [.name "case", .list [.name "if", .bool true, .int 2, .int 1],
    .list [.list [.int 1], .int 10], .list [.list [.int 2], .int 20]]

theorem clauses_select_small : (∃ w u own bound ks ps,
    expandToplevel ⟨0, []⟩ (entered bareTest).1 (entered bareTest).2 = .ok w u ∧ u.Safe own ∧
      Selects ⟨0, []⟩ (entered bareTest).2 u [.pair 0, .pair 2] own bound ks ps w) ∧
    ∃ w u own bound as p test arms,
      expandToplevel ⟨0, []⟩ (entered computedKey).1 (entered computedKey).2 = .ok w u ∧
        u.Safe own ∧ Chooses ⟨0, []⟩ (entered computedKey).2 u
          [.name "if", .bool true, .int 2, .int 1] [.pair 6, .pair 9] own bound as p test arms w := by
  constructor
  · obtain ⟨hs, hform⟩ := known_entered (d := bareTest) (by decide)
    obtain ⟨w, u, h, hintact, hnone⟩ := exists_of_expandsPlainly (d := bareTest) (by cbv)
    have hreceivers : Receivers ⟨0, []⟩ (entered bareTest).2 u [.pair 0, .pair 2] := by
      rintro r ⟨before, v, after, test, hvs, hread⟩
      have hv : v ∈ [Value.pair 0, .pair 2] := hvs ▸ by simp
      have hbare : (entered bareTest).2.clause? after.isEmpty v = some (.bare (.bool false)) ∨
          (entered bareTest).2.clause? after.isEmpty v = some (.plain (.int 1) [.int 2]) := by
        simp only [List.mem_cons, List.not_mem_nil, or_false] at hv
        rcases hv with rfl | rfl
        · exact .inl rfl
        · exact .inr (by cases after.isEmpty <;> rfl)
      rcases hbare with hbare | hbare <;> cases hbare.symm.trans hread
    obtain ⟨own, bound, ks, ps, hselects⟩ := (clauses_select hs hform hintact h).1 (.user "cond") _
      rfl rfl (hnone _ (by decide)) hreceivers
    exact ⟨w, u, own, bound, ks, ps, h, hselects⟩
  · have hknown := known_entered (d := computedKey) (by decide)
    obtain ⟨w, u, h, hintact, hnone⟩ := exists_of_expandsPlainly (d := computedKey)
      (expandsPlainly_of_passes (by decide +kernel))
    have hlist : (entered computedKey).2.properList? (entered computedKey).1 =
        some [.symbol (.user "case"), .pair 3, .pair 6, .pair 9] := by cbv
    have hkey : (entered computedKey).2.properList? (.pair 3) =
        some [.name "if", .bool true, .int 2, .int 1] := by cbv
    have hmemv := hnone "memv" (by decide)
    have hname := hnone "atom-key" (by decide)
    generalize entered computedKey = placed at hknown h hintact hlist hkey ⊢
    obtain ⟨hs, hform⟩ := hknown
    obtain ⟨own, bound, as, p, test, arms, hchooses⟩ :=
      (clauses_select hs hform hintact h).2 _ _ _ _ hlist rfl hkey hmemv hname
    exact ⟨w, u, own, bound, as, p, test, arms, h, hchooses⟩

/-- `(syntax-rules () ((_ x) x))` -/
def identityForm (name : String) : Transformer where
  name := name
  literals := []
  rules := [{
    number := 1
    pattern := pattern [.wildcard, binds "x"] .done
    template := (puts "x").1
    depths := depths [("x", 0)] }]

/-- `(lambda (x) temp)` -/
def tempReader : Datum := .list [.name "lambda", .list [.name "x"], .name "temp"]

/-- Where `temp` is the name of a transformer, an identifier `temp` of the user's means the value
of the test. -/
theorem temp_captured :
    gives (installed [(.user "temp", .int 5)] [identityForm "temp"]) 40
      (.list [.name "cond", .list [.int 1, .name "=>", tempReader]]) = some 1 ∧
    gives (installed [(.user "temp", .int 5)] [identityForm "temp"]) 40
      (.list [tempReader, .int 1]) = some 5 := by
  constructor <;> cbv

end Derived

end HygienicScheme
