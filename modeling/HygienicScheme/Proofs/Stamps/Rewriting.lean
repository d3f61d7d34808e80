import HygienicScheme.Proofs.Expansion.Positions
import HygienicScheme.Proofs.Stamps.Stripping

/-!
# What settling makes of a form

The pass that settles stamps makes a value of the same shape, in which stamped symbols may have shed
their stamps. `Rewritten` tells at which places they do: in data everywhere, and in code unless the
symbol is one of those that are bound.
-/
namespace HygienicScheme

variable {s t u : Store} {v w r tail last : Value} {items rs : List Value} {n : Nat}

theorem exists_mem_zip (h : items.length = rs.length) (hr : r ∈ rs) :
    ∃ v, (v, r) ∈ items.zip rs := by
  have hall : List.Forall₂ (fun v r => (v, r) ∈ items.zip rs) items rs :=
    List.forall₂_iff_zip.mpr ⟨h, id⟩
  obtain ⟨v, -, hv⟩ := SyntaxRules.exists_of_mem_right hall hr
  exact ⟨v, hv⟩

theorem QuasiKeyword.ofSymbol?_name (keyword : QuasiKeyword) :
    ofSymbol? (.user keyword.name) = some keyword := by
  cases keyword <;> decide

theorem QuasiKeyword.ofSymbol?_core {x : Symbol} {keyword : QuasiKeyword}
    (h : ofSymbol? x = some keyword) : isCoreKeyword x.name := by
  have hname : x.name = "quasiquote" ∨ x.name = "unquote" ∨ x.name = "unquote-splicing" := by
    by_contra hnot
    simp only [not_or] at hnot
    simp [ofSymbol?, hnot] at h
  rcases hname with hname | hname | hname <;> rw [hname] <;> decide

structure Mirrors (v r : Value) : Prop where
  symbol : ∀ {y}, r = .symbol y → ∃ x, v = .symbol x ∧ (y = x ∨ isCoreKeyword y.name = false)
  null : r = .null → v = .null
  pair : ∀ {b}, r = .pair b → ∃ a, v = .pair a

theorem Mirrors.refl (v : Value) : Mirrors v v where
  symbol h := ⟨_, h, .inl rfl⟩
  null h := h
  pair h := ⟨_, h⟩

theorem Mirrors.pairs (a b : Address) : Mirrors (.pair a) (.pair b) where
  symbol h := by cases h
  null h := by cases h
  pair _ := ⟨a, rfl⟩

theorem Mirrors.vectors (a b : Address) : Mirrors (.vector a) (.vector b) where
  symbol h := by cases h
  null h := by cases h
  pair h := by cases h

theorem Mirrors.unstamped {x : Symbol} (hx : x.Regular) :
    Mirrors (.symbol x) (.symbol x.unstamped) where
  symbol h := by
    cases h
    rcases hx with hplain | hstamped
    · exact ⟨x, rfl, .inl hplain.symm⟩
    · exact ⟨x, rfl, .inr hstamped.2⟩
  null h := by cases h
  pair h := by cases h

theorem Mirrors.eq_of_core {y : Symbol} (h : Mirrors v (.symbol y)) (hy : isCoreKeyword y.name) :
    v = .symbol y := by
  obtain ⟨x, rfl, rfl | hcore⟩ := h.symbol rfl
  · rfl
  · rw [hy] at hcore
    cases hcore

theorem quasiForm?_none_of_mirrors {a b : Address} (hnone : s.quasiForm? (.pair a) = none)
    (hcar : Mirrors (s.pairAt a).car (t.pairAt b).car)
    (hcdr : Mirrors (s.pairAt a).cdr (t.pairAt b).cdr)
    (hlast : ∀ {c d}, (s.pairAt a).cdr = .pair c → (t.pairAt b).cdr = .pair d →
      (t.pairAt d).cdr = .null → (s.pairAt c).cdr = .null) : t.quasiForm? (.pair b) = none := by
  by_contra hsome
  obtain ⟨⟨keyword, operand⟩, hform⟩ := Option.ne_none_iff_exists'.mp hsome
  obtain ⟨head, d, hpair, hhead, hd⟩ := Store.quasiForm?_eq_some.mp hform
  rw [hpair] at hcar hcdr
  obtain ⟨c, hc⟩ := hcdr.pair rfl
  have hnull := hlast hc (by rw [hpair]) (by rw [hd])
  have hhead' := hcar.eq_of_core (QuasiKeyword.ofSymbol?_core hhead)
  have hbefore : s.quasiForm? (.pair a) = some (keyword, (s.pairAt c).car) :=
    Store.quasiForm?_eq_some.mpr ⟨head, c, by rw [← hhead', ← hc], hhead, by rw [← hnull]⟩
  rw [hnone] at hbefore
  cases hbefore

namespace Renaming

theorem Head.ofItems_cons (head : Value) (items rs : List Value) :
    Head.ofItems (head :: items) = Head.ofItems (head :: rs) := by
  cases head <;> rfl

theorem Head.ofItems_of_core {x : Symbol} (hx : isCoreKeyword x.name = false) :
    Head.ofItems (.symbol x :: items) = .other := by
  have hname : ∀ keyword : String, isCoreKeyword keyword = true → (x.name == keyword) = false := by
    intro keyword hkeyword
    refine beq_false_of_ne fun heq => ?_
    rw [heq, hkeyword] at hx
    cases hx
  simp [Head.ofItems, hname "quote" (by decide), hname "quasiquote" (by decide),
    hname "lambda" (by decide), hname "define" (by decide), hname "define-syntax" (by decide)]

end Renaming

namespace Store

theorem core_of_stamped {x : Symbol} (h : s.Form (.symbol x)) (hx : x.isStamped) :
    isCoreKeyword x.name = false := by
  rcases h.regular with hplain | hregular
  · rw [hplain] at hx
    cases hx
  · exact hregular.2

theorem quasiForm?_of_chain {head : Symbol} {keyword : QuasiKeyword} {operand : Value}
    (hchain : s.Chain v [.symbol head, operand] .null)
    (hhead : QuasiKeyword.ofSymbol? head = some keyword) :
    s.quasiForm? v = some (keyword, operand) := by
  have hlist := properList?_eq_some.mpr hchain
  cases v with
  | pair a =>
    rw [quasiForm?, hlist]
    exact congrArg (Option.map _) hhead
  | _ => cases hlist

/-- The second value is the first with some of the stamps taken off. -/
inductive Sheds (s t : Store) : Value → Value → Prop
  | same {v : Value} (hp : ∀ a, v ≠ .pair a) (hv : ∀ a, v ≠ .vector a) : Sheds s t v v
  | symbol {x : Symbol} (hx : x.isStamped) : Sheds s t (.symbol x) (.symbol x.unstamped)
  | pair {a b : Address} (hb : b < t.pairs.size)
      (hcar : Sheds s t (s.pairAt a).car (t.pairAt b).car)
      (hcdr : Sheds s t (s.pairAt a).cdr (t.pairAt b).cdr) : Sheds s t (.pair a) (.pair b)
  | vector {a b : Address} (hb : b < t.vectors.size)
      (hlength : (s.vectorAt a).toList.length = (t.vectorAt b).toList.length)
      (hitems : ∀ v w, (v, w) ∈ (s.vectorAt a).toList.zip (t.vectorAt b).toList → Sheds s t v w) :
      Sheds s t (.vector a) (.vector b)

namespace Sheds

theorem refl (hv : s.Tree v) (hg : s.Grows t) : s.Sheds t v v := by
  induction hv with
  | leaf hp hv => exact .same hp hv
  | pair ha _ _ hcar hcdr =>
    refine .pair (Nat.lt_of_lt_of_le ha hg.pairs_le) ?_ ?_ <;> rwa [hg.pairAt_eq ha]
  | vector ha _ hitems =>
    refine .vector (Nat.lt_of_lt_of_le ha hg.vectors_le) ?_ ?_ <;> rw [hg.vectorAt_eq ha]
    intro v w hvw
    obtain rfl : v = w := List.forall₂_zip (List.forall₂_same.mpr fun _ _ => rfl) hvw
    exact hitems v (List.of_mem_zip hvw).1

theorem grow (h : s.Sheds t v w) (hg : t.Grows u) : s.Sheds u v w := by
  induction h with
  | same hp hv => exact .same hp hv
  | symbol hx => exact .symbol hx
  | pair hb _ _ hcar hcdr =>
    rw [← hg.pairAt_eq hb] at hcar hcdr
    exact .pair (Nat.lt_of_lt_of_le hb hg.pairs_le) hcar hcdr
  | vector hb hlength _ hitems =>
    rw [← hg.vectorAt_eq hb] at hlength hitems
    exact .vector (Nat.lt_of_lt_of_le hb hg.vectors_le) hlength hitems

theorem spine (hv : s.Spine v items tail) (hr : t.Spine r rs last)
    (hitems : List.Forall₂ (s.Sheds t) items rs) (htail : s.Sheds t tail last) :
    s.Sheds t v r := by
  induction hv generalizing r rs with
  | nil =>
    cases hitems
    cases hr
    exact htail
  | cons _ _ ih =>
    cases hitems with
    | cons hitem hitems =>
      cases hr with
      | cons hb hr => exact .pair hb hitem (ih hr hitems htail)

theorem of_items {a b : Address} (hb : b < t.vectors.size)
    (hitems : List.Forall₂ (s.Sheds t) (s.vectorAt a).toList (t.vectorAt b).toList) :
    s.Sheds t (.vector a) (.vector b) :=
  .vector hb hitems.length_eq fun _ _ => List.forall₂_zip hitems

theorem pair_lt {b : Address} (h : s.Sheds t v (.pair b)) : ∃ a, v = .pair a ∧ b < t.pairs.size ∧
    s.Sheds t (s.pairAt a).car (t.pairAt b).car ∧ s.Sheds t (s.pairAt a).cdr (t.pairAt b).cdr := by
  cases h with
  | same hp => exact absurd rfl (hp b)
  | pair hb hcar hcdr => exact ⟨_, rfl, hb, hcar, hcdr⟩

theorem exists_pair {a : Address} (h : s.Sheds t (.pair a) r) : ∃ b, r = .pair b := by
  cases h with
  | same hp => exact absurd rfl (hp a)
  | pair => exact ⟨_, rfl⟩

theorem ne_pair (h : s.Sheds t v r) (hv : ∀ a, v ≠ .pair a) (b : Address) : r ≠ .pair b := by
  rintro rfl
  obtain ⟨a, rfl, -⟩ := h.pair_lt
  exact hv a rfl

theorem of_form (h : s.Sheds t v r) (hv : s.Form v) : t.Form r := by
  induction h with
  | same hp hvector =>
    refine .leaf hp hvector ?_
    rintro x rfl
    exact hv.regular
  | symbol => exact form_symbol (.inl rfl)
  | pair hb _ _ hcar hcdr => exact .pair hb (hcar hv.car) (hcdr hv.cdr)
  | vector hb hlength _ hitems =>
    refine .vector hb fun w hw => ?_
    obtain ⟨v, hvw⟩ := exists_mem_zip hlength hw
    exact hitems v w hvw (hv.item v (List.of_mem_zip hvw).1)

theorem mirrors (h : s.Sheds t v r) (hv : s.Form v) : Mirrors v r := by
  cases h with
  | same => exact .refl v
  | symbol _ => exact .unstamped hv.regular
  | pair => exact .pairs _ _
  | vector => exact .vectors _ _

theorem chain (h : s.Sheds t v r) (hv : s.Chain v items tail) :
    ∃ rs last, t.Chain r rs last ∧ List.Forall₂ (s.Sheds t) items rs ∧ s.Sheds t tail last := by
  induction hv generalizing r with
  | tail hp =>
    exact ⟨[], r, .tail (h.ne_pair hp), .nil, h⟩
  | pair _ ih =>
    cases h with
    | same hp => exact absurd rfl (hp _)
    | pair hb hcar hcdr =>
      obtain ⟨rs, last, hchain, hitems, htail⟩ := ih hcdr
      exact ⟨_, last, .pair hchain, .cons hcar hitems, htail⟩

theorem unstamped_symbol {x : Symbol} (h : s.Sheds t (.symbol x) r) (hx : x.isStamped = false) :
    r = .symbol x := by
  cases h with
  | same => rfl
  | symbol hstamped =>
    rw [hx] at hstamped
    cases hstamped

theorem null (h : s.Sheds t .null r) : r = .null := by
  cases h
  rfl

theorem ofItems_eq (h : List.Forall₂ (s.Sheds t) items rs) (hitems : ∀ v ∈ items, s.Form v) :
    Renaming.Head.ofItems rs = Renaming.Head.ofItems items := by
  cases h with
  | nil => rfl
  | @cons head _ more _ hhead _ =>
    cases hhead with
    | same => exact Renaming.Head.ofItems_cons head _ _
    | @symbol x hx =>
      have hcore := core_of_stamped (hitems (.symbol x) (by simp)) hx
      have hcore' : isCoreKeyword x.unstamped.name = false := hcore
      rw [Renaming.Head.ofItems_of_core hcore, Renaming.Head.ofItems_of_core hcore']
    | pair => rfl
    | vector => rfl

theorem quasiquote (h : List.Forall₂ (s.Sheds t) items rs) (hitems : ∀ v ∈ items, s.Form v)
    (htail : s.Sheds t tail r) (hnull : s.Form tail)
    (hform : Renaming.Form.of rs r = .quasiquote w) :
    ∃ v, Renaming.Form.of items tail = .quasiquote v ∧ s.Sheds t v w := by
  obtain ⟨hhead, rfl, _, rfl⟩ := Renaming.Form.eq_quasiquote.mp hform
  obtain ⟨head, _, -, hrest, rfl⟩ := List.forall₂_cons_right_iff.mp h
  obtain ⟨v, _, hv, hnil, rfl⟩ := List.forall₂_cons_right_iff.mp hrest
  obtain rfl := List.forall₂_nil_right_iff.mp hnil
  exact ⟨v, Renaming.Form.eq_quasiquote.mpr
    ⟨ofItems_eq h hitems ▸ hhead, (htail.mirrors hnull).null rfl, head, rfl⟩, hv⟩

theorem other (h : List.Forall₂ (s.Sheds t) items rs) (hitems : ∀ v ∈ items, s.Form v)
    (htail : s.Sheds t tail last) (hnull : s.Form tail)
    (hform : Renaming.Form.of items tail = .other) :
    Renaming.Form.of rs last = .other := by
  have hof := ofItems_eq h hitems
  cases hform' : Renaming.Form.of rs last with
  | quote data =>
    obtain ⟨hhead, head, rfl⟩ := Renaming.Form.eq_quote.mp hform'
    obtain ⟨_, _, -, -, rfl⟩ := List.forall₂_cons_right_iff.mp h
    cases hform.symm.trans (Renaming.Form.eq_quote.mpr ⟨hof ▸ hhead, _, rfl⟩)
  | quasiquote w =>
    obtain ⟨v, hv, -⟩ := quasiquote h hitems htail hnull hform'
    cases hform.symm.trans hv
  | definition =>
    have hhead := Renaming.Form.eq_definition.mp hform'
    cases hform.symm.trans (Renaming.Form.eq_definition.mpr (hof ▸ hhead))
  | other => rfl

theorem form {keyword : QuasiKeyword} {operand : Value} (h : s.Sheds t v r)
    (hform : s.quasiForm? v = some (keyword, operand)) :
    ∃ w, t.quasiForm? r = some (keyword, w) ∧ s.Sheds t operand w := by
  obtain ⟨a, head, rfl, hhead, hchain⟩ := quasiForm?_chain hform
  obtain ⟨rs, last, hchain', hitems, htail⟩ := h.chain hchain
  obtain rfl := htail.null
  obtain ⟨_, _, hkeyword, hrest, rfl⟩ := List.forall₂_cons_left_iff.mp hitems
  obtain ⟨w, _, hw, hnil, rfl⟩ := List.forall₂_cons_left_iff.mp hrest
  obtain rfl := List.forall₂_nil_left_iff.mp hnil
  obtain rfl := hkeyword.unstamped_symbol (QuasiKeyword.of_symbol hhead).1
  exact ⟨w, quasiForm?_of_chain hchain' hhead, hw⟩

theorem form_none {a b : Address} (h : s.Sheds t (.pair a) (.pair b)) (hv : s.Form (.pair a))
    (hnone : s.quasiForm? (.pair a) = none) : t.quasiForm? (.pair b) = none := by
  obtain ⟨a, heq, -, hcar, hcdr⟩ := h.pair_lt
  cases heq
  refine quasiForm?_none_of_mirrors hnone (hcar.mirrors hv.car) (hcdr.mirrors hv.cdr) ?_
  rintro c d hc hd hnull
  rw [hc, hd] at hcdr
  obtain ⟨_, heq, -, -, hlast⟩ := hcdr.pair_lt
  cases heq
  rw [hnull] at hlast
  have hv := hv.cdr
  rw [hc] at hv
  exact (hlast.mirrors hv.cdr).null rfl

end Sheds

theorem isStamped?_symbol (s : Store) (x : Symbol) :
    s.isStamped? (.symbol x) = some x.isStamped := by
  obtain ⟨m, hm⟩ := s.exists_walkBound
  rw [isStamped?, hm]
  rfl

def Strips (s t : Store) (v r : Value) : Prop := t.Clean r ∧ s.Sheds t v r

theorem Strips.grow (h : s.Strips t v r) (hg : t.Grows u) : s.Strips u v r :=
  ⟨h.1.grow hg, h.2.grow hg⟩

theorem Strips.spine (hv : s.Spine v items tail) (hr : t.Spine r rs last)
    (hitems : List.Forall₂ (s.Strips t) items rs) (htail : s.Strips t tail last) :
    s.Strips t v r := by
  refine ⟨hr.clean (fun w hw => ?_) htail.1, .spine hv hr (hitems.imp fun _ _ h => h.2) htail.2⟩
  obtain ⟨_, _, h⟩ := SyntaxRules.exists_of_mem_right hitems hw
  exact h.1

end Store

namespace Renaming

open HygienicScheme.Action (ok_of_bind)
open Store (splitList?_eq_some)

theorem rebuild_ok {f : Value → Action Value} {Q : Store → Value → Value → Prop}
    (hf : ∀ v, (f v).Expanding) (hQ : ∀ {s t v r}, s.Expands t → Q s v r → Q t v r)
    (h : rebuild f items tail s = .ok r t)
    (hok : ∀ v ∈ tail :: items, ∀ s' t' r, s.Expands s' → f v s' = .ok r t' → Q t' v r) :
    ∃ rs last, t.Spine r rs last ∧ List.Forall₂ (Q t) items rs ∧ Q t tail last := by
  obtain ⟨rs, s₁, hrs, h⟩ := ok_of_bind h
  obtain ⟨last, s₂, hlast, h⟩ := ok_of_bind h
  have hs₁ := (Action.Expanding.mapM hf items).of_ok hrs
  have hs₂ := (hf tail).of_ok hlast
  have hbuild : (liftM (Build.listWithTail rs last) : Action Value).Expanding :=
    Action.Expanding.lift (Build.expanding_listWithTail rs last)
  have ht := hbuild.of_ok h
  have hitems := Action.Expanding.mapM_ok (Q := Q) hf hQ hrs fun v hv =>
    hok v (List.mem_cons_of_mem _ hv)
  have hspine := (Build.listWithTail_spine rs last s₂).2
  cases h
  refine ⟨rs, last, hspine, hitems.imp fun v r hr => hQ (hs₂.trans ht) hr, ?_⟩
  exact hQ ht (hok tail (by simp) s₁ s₂ last hs₁ hlast)

theorem strip_strips (hg : s.Grows t) (hv : s.Form v) (h : strip n v t = .ok r u) :
    s.Strips u v r := by
  induction n generalizing v t r u with
  | zero => cases h
  | succ n ih =>
    have hstable : ∀ {s' t' : Store} {v r : Value}, s'.Expands t' → s.Strips s' v r →
        s.Strips t' v r := fun hst hr => hr.grow hst.toGrows
    cases hstamped : t.isStamped? v with
    | none =>
      unfold strip at h
      rw [Action.get_bind, hstamped] at h
      cases h
    | some b =>
      cases b with
      | false =>
        rw [strip_unstamped hstamped] at h
        cases h
        exact ⟨(hv.grow hg).clean hstamped, .refl hv.tree hg⟩
      | true =>
        cases v with
        | symbol x =>
          rw [strip_symbol hstamped] at h
          cases h
          exact ⟨Store.clean_symbol.mpr rfl,
            .symbol (Option.some.inj (t.isStamped?_symbol x ▸ hstamped))⟩
        | pair a =>
          obtain ⟨items, tail, hchain⟩ := hv.tree.chain
          obtain ⟨hitems, htail⟩ := hv.chain hchain
          rw [strip_list hstamped
            (splitList?_eq_some.mpr ((hv.tree.inside.chain_grows hg).mpr hchain))] at h
          have hparts : ∀ v ∈ tail :: items, s.Form v := List.forall_mem_cons.mpr ⟨htail, hitems⟩
          obtain ⟨rs, last, hspine, hrs, hlast⟩ :=
            rebuild_ok (Q := fun t v r => s.Strips t v r) (expanding_strip n) hstable h
              fun v hv s' t' r hs' hr => ih (hg.trans hs'.toGrows) (hparts v hv) hr
          exact .spine (hv.tree.spine hchain) hspine hrs hlast
        | vector a =>
          rw [strip_vector hstamped, hg.vectorAt_eq hv.tree.vector_lt] at h
          obtain ⟨rs, t', hrs, h⟩ := ok_of_bind h
          have hall := Action.Expanding.mapM_ok (Q := fun t v r => s.Strips t v r)
            (expanding_strip n) hstable hrs
            fun w hw s' t' r hs' hr => ih (hg.trans hs'.toGrows) (hv.item w hw) hr
          have hg' := t'.grows_push_vector rs.toArray
          have hmade : List.Forall₂ (s.Strips _) (s.vectorAt a).toList rs :=
            hall.imp fun v r hvr => hvr.grow hg'
          cases Action.lift_ok h
          refine ⟨Store.clean_vector.mpr ⟨by simp, fun w hw => ?_⟩, .of_items (by simp) ?_⟩
          · rw [Store.vectorAt_push_size] at hw
            obtain ⟨_, _, hvr⟩ := SyntaxRules.exists_of_mem_right hmade hw
            exact hvr.1
          · rw [Store.vectorAt_push_size]
            exact hmade.imp fun v r hvr => hvr.2
        | _ =>
          obtain ⟨w, hw⟩ := Store.exists_part_of_search hstamped (by simp)
          exact absurd hw (Store.Leaf.not_part ⟨by simp, by simp⟩)

inductive Rewritten (bound : List Symbol) (s t : Store) : Role → Value → Value → Prop
  | symbol (x : Symbol) : Rewritten bound s t .code (.symbol x)
      (.symbol (if x.isStamped && !bound.contains x then x.unstamped else x))
  | atom {v r : Value} (hx : ∀ x, v ≠ .symbol x) (hp : ∀ a, v ≠ .pair a) (h : s.Strips t v r) :
      Rewritten bound s t .code v r
  | quote {a : Address} {items data : List Value} {tail r : Value}
      (hchain : s.Chain (.pair a) items tail) (hform : Form.of items tail = .quote data)
      (h : s.Strips t (.pair a) r) : Rewritten bound s t .code (.pair a) r
  | quasiquote {a : Address} {v w r : Value}
      (hchain : s.Chain (.pair a) [.name "quasiquote", v] .null)
      (hr : t.Spine r [.name "quasiquote", w] .null) (h : Rewritten bound s t (.template 1) v w) :
      Rewritten bound s t .code (.pair a) r
  | definition {a : Address} {items : List Value} {tail : Value}
      (hchain : s.Chain (.pair a) items tail) (hform : Form.of items tail = .definition)
      (h : s.Sheds t (.pair a) (.pair a)) : Rewritten bound s t .code (.pair a) (.pair a)
  | other {a : Address} {items rs : List Value} {tail last r : Value}
      (hchain : s.Chain (.pair a) items tail) (hform : Form.of items tail = .other)
      (hr : t.Spine r rs last) (hlength : items.length = rs.length)
      (hitems : ∀ v w, (v, w) ∈ items.zip rs → Rewritten bound s t .code v w)
      (htail : Rewritten bound s t .code tail last) : Rewritten bound s t .code (.pair a) r
  | leaf {v r : Value} {level : Nat} (hp : ∀ a, v ≠ .pair a) (hv : ∀ a, v ≠ .vector a)
      (h : s.Strips t v r) : Rewritten bound s t (.template level) v r
  | form {a : Address} {keyword : QuasiKeyword} {v w r : Value} {level : Nat}
      (hform : s.quasiForm? (.pair a) = some (keyword, v))
      (hchain : s.Chain (.pair a) [.name keyword.name, v] .null)
      (hr : t.Spine r [.name keyword.name, w] .null)
      (h : Rewritten bound s t (.within keyword level) v w) :
      Rewritten bound s t (.template level) (.pair a) r
  | pair {a b : Address} {level : Nat} (hform : s.quasiForm? (.pair a) = none)
      (hb : b < t.pairs.size)
      (hcar : Rewritten bound s t (.template level) (s.pairAt a).car (t.pairAt b).car)
      (hcdr : Rewritten bound s t (.template level) (s.pairAt a).cdr (t.pairAt b).cdr) :
      Rewritten bound s t (.template level) (.pair a) (.pair b)
  | vector {a b : Address} {level : Nat} (hb : b < t.vectors.size)
      (hlength : (s.vectorAt a).toList.length = (t.vectorAt b).toList.length)
      (hitems : ∀ v w, (v, w) ∈ (s.vectorAt a).toList.zip (t.vectorAt b).toList →
        Rewritten bound s t (.template level) v w) :
      Rewritten bound s t (.template level) (.vector a) (.vector b)

namespace Rewritten

variable {bound : List Symbol} {role : Role}

theorem grow (h : Rewritten bound s t role v r) (hg : t.Grows u) :
    Rewritten bound s u role v r := by
  induction h with
  | symbol x => exact .symbol x
  | atom hx hp h => exact .atom hx hp (h.grow hg)
  | quote hchain hform h => exact .quote hchain hform (h.grow hg)
  | quasiquote hchain hr _ ih => exact .quasiquote hchain (hr.grow hg) ih
  | definition hchain hform h => exact .definition hchain hform (h.grow hg)
  | other hchain hform hr hlength _ _ hitems htail =>
    exact .other hchain hform (hr.grow hg) hlength hitems htail
  | leaf hp hv h => exact .leaf hp hv (h.grow hg)
  | form hform hchain hr _ ih => exact .form hform hchain (hr.grow hg) ih
  | pair hform hb _ _ hcar hcdr =>
    rw [← hg.pairAt_eq hb] at hcar hcdr
    exact .pair hform (Nat.lt_of_lt_of_le hb hg.pairs_le) hcar hcdr
  | vector hb hlength _ hitems =>
    rw [← hg.vectorAt_eq hb] at hlength hitems
    exact .vector (Nat.lt_of_lt_of_le hb hg.vectors_le) hlength hitems

theorem sheds (h : Rewritten bound s t role v r) (hv : s.Tree v) : s.Sheds t v r := by
  induction h with
  | symbol x =>
    split
    · rename_i hx
      exact .symbol (by simp_all)
    · exact .same nofun nofun
  | atom _ _ h | quote _ _ h | leaf _ _ h => exact h.2
  | definition _ _ h => exact h
  | quasiquote hchain hr _ ih | form _ hchain hr _ ih =>
    have hw := ih (hv.items hchain _ (by simp))
    exact .spine (hv.spine hchain) hr (.cons (.same nofun nofun) (.cons hw .nil))
      (.same nofun nofun)
  | other hchain _ hr hlength _ _ hitems htail =>
    refine .spine (hv.spine hchain) hr (List.forall₂_iff_zip.mpr ⟨hlength, fun hvw => ?_⟩)
      (htail (hv.tail hchain))
    exact hitems _ _ hvw (hv.items hchain _ (List.of_mem_zip hvw).1)
  | pair _ hb _ _ hcar hcdr => exact .pair hb (hcar hv.car) (hcdr hv.cdr)
  | vector hb hlength _ hitems =>
    exact .vector hb hlength fun v w hvw => hitems v w hvw (hv.item (List.of_mem_zip hvw).1)

theorem kept {x : Symbol} (h : Rewritten bound s t .code (.symbol x) r) (hx : x ∈ bound) :
    r = .symbol x := by
  cases h with
  | symbol => simp [hx]
  | atom hx => exact absurd rfl (hx x)

theorem quasiquotation {a : Address} (h : Rewritten bound s t .code (.pair a) r)
    (hchain : s.Chain (.pair a) items tail) (hform : Form.of items tail = .quasiquote v) :
    items = [.name "quasiquote", v] ∧ ∃ w, t.Spine r [.name "quasiquote", w] .null ∧
      Rewritten bound s t (.template 1) v w := by
  cases h with
  | atom _ hp => exact absurd rfl (hp a)
  | quasiquote hchain' hr h =>
    obtain ⟨rfl, rfl⟩ := hchain.unique hchain'
    cases hform
    exact ⟨rfl, _, hr, h⟩
  | quote hchain' hform' | definition hchain' hform' | other hchain' hform' =>
    obtain ⟨rfl, rfl⟩ := hchain.unique hchain'
    cases hform.symm.trans hform'

theorem list {a : Address} (h : Rewritten bound s t .code (.pair a) r)
    (hchain : s.Chain (.pair a) items tail) (hform : Form.of items tail = .other) :
    ∃ rs last, t.Spine r rs last ∧ List.Forall₂ (Rewritten bound s t .code) items rs ∧
      Rewritten bound s t .code tail last := by
  cases h with
  | atom _ hp => exact absurd rfl (hp a)
  | other hchain' _ hr hlength hitems htail =>
    obtain ⟨rfl, rfl⟩ := hchain.unique hchain'
    exact ⟨_, _, hr, List.forall₂_iff_zip.mpr ⟨hlength, hitems _ _⟩, htail⟩
  | quasiquote hchain' =>
    obtain ⟨rfl, rfl⟩ := hchain.unique hchain'
    cases hform
  | quote hchain' hform' | definition hchain' hform' =>
    obtain ⟨rfl, rfl⟩ := hchain.unique hchain'
    cases hform.symm.trans hform'

end Rewritten

theorem keyword_eq {x : Symbol} (hx : s.Form (.symbol x)) (hstamped : x.isStamped = false) :
    Value.symbol x = .name x.name := by
  rcases hx.regular with hplain | hregular
  · exact congrArg Value.symbol hplain
  · rw [hstamped] at hregular
    cases hregular.1

theorem Head.ofItems_quote (h : Head.ofItems items = .quote) :
    ∃ x more, items = .symbol x :: more ∧ x.isStamped = false ∧ x.name = "quote" := by
  unfold Head.ofItems at h
  split at h
  · split_ifs at h
    exact ⟨_, _, rfl, by simp_all⟩
  · cases h

theorem Head.ofItems_quasiquote (h : Head.ofItems items = .quasiquote) :
    ∃ x more, items = .symbol x :: more ∧ x.isStamped = false ∧ x.name = "quasiquote" := by
  unfold Head.ofItems at h
  split at h
  · split_ifs at h
    exact ⟨_, _, rfl, by simp_all⟩
  · cases h

theorem Form.quote_items {data : List Value} (h : Form.of items tail = .quote data)
    (hitems : ∀ v ∈ items, s.Form v) : items = .name "quote" :: data := by
  obtain ⟨hhead, head, rfl⟩ := Form.eq_quote.mp h
  obtain ⟨x, more, heq, hx, hname⟩ := Head.ofItems_quote hhead
  obtain ⟨rfl, rfl⟩ := List.cons.inj heq
  rw [keyword_eq (hitems _ (by simp)) hx, hname]

theorem Form.quasiquote_items (h : Form.of items tail = .quasiquote v)
    (hitems : ∀ v ∈ items, s.Form v) : items = [.name "quasiquote", v] ∧ tail = .null := by
  obtain ⟨hhead, rfl, head, rfl⟩ := Form.eq_quasiquote.mp h
  obtain ⟨x, more, heq, hx, hname⟩ := Head.ofItems_quasiquote hhead
  obtain ⟨rfl, rfl⟩ := List.cons.inj heq
  rw [keyword_eq (hitems _ (by simp)) hx, hname]
  exact ⟨rfl, rfl⟩

variable {bound : List Symbol}

def RewritesCode (s : Store) (bound : List Symbol) (n : Nat) : Prop :=
  ∀ {t u v r}, s.Grows t → s.Form v → code bound n v t = .ok r u → Rewritten bound s u .code v r

def RewritesTemplates (s : Store) (bound : List Symbol) (n : Nat) : Prop :=
  ∀ {t u v r} (level : Nat), s.Grows t → s.Form v → template bound n level v t = .ok r u →
    Rewritten bound s u (.template level) v r

theorem rebuild_strips {data : List Value} (hg : s.Grows t) (hdata : ∀ v ∈ data, s.Form v)
    (htail : s.Form tail) (h : rebuild (strip n) data tail t = .ok r u) :
    ∃ rs last, u.Spine r rs last ∧ List.Forall₂ (s.Strips u) data rs ∧ s.Strips u tail last :=
  rebuild_ok (Q := fun t v r => s.Strips t v r) (expanding_strip n)
    (fun hst hr => hr.grow hst.toGrows) h fun v hv _ _ _ hs' hr =>
      strip_strips (hg.trans hs'.toGrows) (List.forall_mem_cons.mpr ⟨htail, hdata⟩ v hv) hr

theorem quotation_strips {a : Address} {data : List Value} {d : Value} (hv : s.Form (.pair a))
    (hg : s.Grows t) (hchain : s.Chain (.pair a) (.name "quote" :: data) tail)
    (hd : rebuild (strip n) data tail t = .ok d u) :
    s.Strips { u with pairs := u.pairs.push ⟨.name "quote", d⟩ } (.pair a)
      (.pair u.pairs.size) := by
  obtain ⟨hitems, htail⟩ := hv.chain hchain
  obtain ⟨rs, last, hspine, hrs, hlast⟩ :=
    rebuild_strips hg (List.forall_mem_cons.mp hitems).2 htail hd
  have hg' := u.grows_push_pair ⟨.name "quote", d⟩
  refine .spine (hv.tree.spine hchain)
    (.of_pairAt (by simp) (u.pairAt_push_size _) (hspine.grow hg')) (.cons ?_ ?_)
    (hlast.grow hg')
  · exact ⟨Store.clean_name _, .same nofun nofun⟩
  · exact hrs.imp fun v r hvr => hvr.grow hg'

theorem rewritesCode_succ (hcode : RewritesCode s bound n)
    (htemplates : RewritesTemplates s bound n) : RewritesCode s bound (n + 1) := by
  intro t u v r hg hv h
  cases v with
  | symbol x =>
    unfold code at h
    cases h
    exact .symbol x
  | pair a =>
    obtain ⟨items, tail, hchain⟩ := hv.tree.chain
    obtain ⟨hitems, htail⟩ := hv.chain hchain
    rw [code_pair (splitList?_eq_some.mpr ((hv.tree.inside.chain_grows hg).mpr hchain))] at h
    cases hform : Form.of items tail with
    | quote data =>
      rw [hform] at h
      obtain rfl := Form.quote_items hform hitems
      obtain ⟨d, t', hd, h⟩ := ok_of_bind h
      cases Action.lift_ok h
      exact .quote hchain hform (quotation_strips hv hg hchain hd)
    | quasiquote w =>
      rw [hform] at h
      obtain ⟨rfl, rfl⟩ := Form.quasiquote_items hform hitems
      obtain ⟨w', t', hw', h⟩ := ok_of_bind h
      have hw := htemplates 1 hg (hitems w (by simp)) hw'
      obtain ⟨hg', hspine⟩ := Build.listWithTail_spine [.name "quasiquote", w'] .null t'
      cases Action.lift_ok h
      exact .quasiquote hchain hspine (hw.grow hg')
    | definition =>
      rw [hform] at h
      cases h
      exact .definition hchain hform (.refl hv.tree hg)
    | other =>
      rw [hform] at h
      have hparts : ∀ v ∈ tail :: items, s.Form v := List.forall_mem_cons.mpr ⟨htail, hitems⟩
      obtain ⟨rs, last, hspine, hrs, hlast⟩ :=
        rebuild_ok (Q := fun t v r => Rewritten bound s t .code v r) (expanding_code bound n)
          (fun hst hr => hr.grow hst.toGrows) h fun v hv s' t' r hs' hr =>
            hcode (hg.trans hs'.toGrows) (hparts v hv) hr
      obtain ⟨hlength, hzip⟩ := List.forall₂_iff_zip.mp hrs
      exact .other hchain hform hspine hlength (fun v w => hzip) hlast
  | vector a =>
    unfold code at h
    exact .atom (by simp) (by simp) (strip_strips hg hv h)
  | _ =>
    unfold code at h
    cases h
    exact .atom (by simp) (by simp)
      ⟨Store.clean_constant rfl, .same (by simp) (by simp)⟩

theorem rewritesTemplates_succ (hcode : RewritesCode s bound n)
    (htemplates : RewritesTemplates s bound n) : RewritesTemplates s bound (n + 1) := by
  intro t u v r level hg hv h
  cases hform : s.quasiForm? v with
  | some form =>
    obtain ⟨keyword, operand⟩ := form
    obtain ⟨a, head, rfl, hhead, hchain⟩ := Store.quasiForm?_chain hform
    have hhead := QuasiKeyword.of_symbol hhead
    obtain ⟨hitems, -⟩ := hv.chain hchain
    rw [template_form ((hg.quasiForm?_eq hv.tree).trans hform)] at h
    obtain ⟨w, t', hw, h⟩ := ok_of_bind h
    obtain ⟨hg', hspine⟩ := Build.listWithTail_spine [.name keyword.name, w] .null t'
    cases Action.lift_ok h
    rw [keyword_eq (hitems _ (by simp)) hhead.1, hhead.2] at hchain
    refine .form hform hchain hspine (Rewritten.grow ?_ hg')
    · have hoperand := hitems operand (by simp)
      unfold Role.within
      split_ifs at hw ⊢
      · exact htemplates _ hg hoperand hw
      · exact hcode hg hoperand hw
      · exact htemplates _ hg hoperand hw
  | none =>
    cases v with
    | pair a =>
      rw [template_pair ((hg.quasiForm?_eq hv.tree).trans hform),
        hg.pairAt_eq hv.tree.pair_lt] at h
      obtain ⟨car, t₁, hcar, h⟩ := ok_of_bind h
      obtain ⟨cdr, t₂, hcdr, h⟩ := ok_of_bind h
      have h₁ := ((expanding_template bound n level _).of_ok hcar).toGrows
      have h₂ := ((expanding_template bound n level _).of_ok hcdr).toGrows
      have hg' := t₂.grows_push_pair ⟨car, cdr⟩
      cases Action.lift_ok h
      refine .pair hform (by simp) ?_ ?_ <;> rw [Store.pairAt_push_size]
      · exact (htemplates level hg hv.car hcar).grow (h₂.trans hg')
      · exact (htemplates level (hg.trans h₁) hv.cdr hcdr).grow hg'
    | vector a =>
      rw [template_vector, hg.vectorAt_eq hv.tree.vector_lt] at h
      obtain ⟨rs, t', hrs, h⟩ := ok_of_bind h
      have hall := Action.Expanding.mapM_ok
        (Q := fun t v r => Rewritten bound s t (.template level) v r)
        (expanding_template bound n level) (fun hst hr => hr.grow hst.toGrows) hrs
        fun w hw s' t' r hs' hr => htemplates level (hg.trans hs'.toGrows) (hv.item w hw) hr
      have hg' := t'.grows_push_vector rs.toArray
      obtain ⟨hlength, hzip⟩ := List.forall₂_iff_zip.mp hall
      cases Action.lift_ok h
      refine .vector (by simp) ?_ ?_ <;> rw [Store.vectorAt_push_size]
      · exact hlength
      · exact fun v w hvw => (hzip hvw).grow hg'
    | _ =>
      rw [template_leaf (by simp) (by simp)] at h
      exact .leaf nofun nofun (strip_strips hg hv h)

theorem rewrites (bound : List Symbol) (s : Store) (n : Nat) :
    RewritesCode s bound n ∧ RewritesTemplates s bound n := by
  induction n with
  | zero =>
    constructor
    · intro t u v r _ _ h
      unfold code at h
      cases h
    · intro t u v r level _ _ h
      unfold template at h
      cases h
  | succ n ih => exact ⟨rewritesCode_succ ih.1 ih.2, rewritesTemplates_succ ih.1 ih.2⟩

theorem renameIntroduced_cases (hv : s.Form v) (h : renameIntroduced v s = .ok r t) :
    (s.Clean v ∧ r = v ∧ t = s) ∨
      ∃ bound, binders s s.walkBound v = some bound ∧ Rewritten bound s t .code v r := by
  unfold renameIntroduced at h
  rw [Action.get_bind] at h
  obtain ⟨stamped, u, hstamped, h⟩ := ok_of_bind h
  obtain ⟨hstamped, rfl⟩ := Action.ended_ok hstamped
  cases stamped with
  | false =>
    cases h
    exact .inl ⟨hv.clean hstamped, rfl, rfl⟩
  | true =>
    obtain ⟨bound, u', hbound, h⟩ := ok_of_bind h
    obtain ⟨hbound, rfl⟩ := Action.ended_ok hbound
    exact .inr ⟨bound, hbound, (rewrites bound u' _).1 (.refl u') hv h⟩

theorem renameIntroduced_sheds (hv : s.Form v) (h : renameIntroduced v s = .ok r t) :
    s.Sheds t v r := by
  rcases renameIntroduced_cases hv h with ⟨-, rfl, rfl⟩ | ⟨bound, -, hrewritten⟩
  · exact .refl hv.tree (.refl t)
  · exact hrewritten.sheds hv.tree

end Renaming

end HygienicScheme
