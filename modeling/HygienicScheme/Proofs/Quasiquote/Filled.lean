import HygienicScheme.Proofs.Quasiquote.Running

/-!
# Filled templates

The value of a template is the template made anew, with the value of each unquoted operand in the
place of its form and the items of each spliced list in the place of theirs. Its cells are new and
nothing else refers to them.
-/
namespace HygienicScheme

structure Evaluation where
  operand : Value
  before : Store
  value : Value
  after : Store

inductive Turns (E : Value → Run) : Store → List Evaluation → Store → Prop
  | none {s t : Store} (h : s.Grows t) : Turns E s [] t
  | next {s t : Store} {e : Evaluation} {more : List Evaluation} (hg : s.Grows e.before)
      (he : E e.operand e.before (.value e.value) e.after) (h : Turns E e.after more t) :
      Turns E s (e :: more) t

namespace Turns

variable {E : Value → Run} {s t u : Store} {es es' : List Evaluation}

theorem after (h : s.Grows t) (k : Turns E t es u) : Turns E s es u := by
  cases k with
  | none hg => exact .none (h.trans hg)
  | next hg he hmore => exact .next (h.trans hg) he hmore

theorem append (h : Turns E s es t) (k : Turns E t es' u) : Turns E s (es ++ es') u := by
  induction h with
  | none hg => exact k.after hg
  | next hg he _ ih => exact .next hg he (ih k)

theorem grow (h : Turns E s es t) (hg : t.Grows u) : Turns E s es u := by
  simpa using h.append (.none hg)

end Turns

namespace Outline

def operands : Outline → List Value
  | .atom _ => []
  | .code _ operand => [operand]
  | .form _ inner => inner.operands
  | .pair car cdr => car.operands ++ cdr.operands
  | .vector _ list => list.operands

def IsList : Outline → Prop
  | .atom v => v = .null
  | .pair _ cdr => cdr.IsList
  | .code .. | .form .. | .vector .. => False

def Proper : Outline → Prop
  | .atom _ | .code .. => True
  | .form _ inner => inner.Proper
  | .pair car cdr => car.Proper ∧ cdr.Proper
  | .vector _ list => list.IsList ∧ list.Proper

/-- The forms that splice stand where items of a list or vector do. -/
def Placed : Outline → Prop
  | .atom _ => True
  | .code keyword _ => keyword ≠ .unquoteSplicing
  | .form _ inner => inner.Placed
  | .pair car cdr => (car.splice?.isSome ∨ car.Placed) ∧ cdr.Placed
  | .vector _ list => list.Placed

def Filled (s : Store) (own : Cells) : Outline → List Evaluation → Value → Prop
  | .atom v, es, w => es = [] ∧ w = v
  | .code _ _, es, w => ∃ e, es = [e] ∧ w = e.value
  | .form keyword inner, es, w =>
    ∃ v, s.Consed own w [.name keyword.name, v] .null ∧ inner.Filled s own es v
  | .pair car cdr, es, w =>
    match car.splice? with
    | some _ => ∃ e more items rest, es = e :: more ∧ e.after.properList? e.value = some items ∧
        s.Consed own w items rest ∧ cdr.Filled s own more rest
    | none => ∃ es₁ es₂ x y, es = es₁ ++ es₂ ∧
        s.Consed own w [x] y ∧ car.Filled s own es₁ x ∧ cdr.Filled s own es₂ y
  | .vector _ list, es, w => ∃ a v, w = .vector a ∧ own.vectors a ∧
      s.Consed own v (s.vectorAt a).toList .null ∧ list.Filled s own es v

variable {E : Value → Run} {s t u : Store} {v w operand : Value} {T car cdr : Outline}
  {own more : Cells} {es : List Evaluation} {P : Store → Prop} {level : Nat} {p : Position}

theorem filled_splice : (pair (.code .unquoteSplicing operand) cdr).Filled s own es w ↔
    ∃ e more items rest, es = e :: more ∧ e.after.properList? e.value = some items ∧
      s.Consed own w items rest ∧ cdr.Filled s own more rest := Iff.rfl

theorem filled_pair (h : car.splice? = none) : (pair car cdr).Filled s own es w ↔
    ∃ es₁ es₂ x y, es = es₁ ++ es₂ ∧
      s.Consed own w [x] y ∧ car.Filled s own es₁ x ∧ cdr.Filled s own es₂ y := by
  rw [Filled, h]

theorem Filled.sameIn (h : T.Filled s own es w) (hst : Store.SameIn own s t) (hle : own.Le more) :
    T.Filled t more es w := by
  induction T generalizing es w with
  | atom | code => exact h
  | form keyword inner ih =>
    obtain ⟨v, hrow, hinner⟩ := h
    exact ⟨v, (hrow.sameIn hst).mono hle, ih hinner⟩
  | pair car cdr ihcar ihcdr =>
    cases hsplice : car.splice? with
    | some operand =>
      obtain rfl := splice?_eq_some.mp hsplice
      obtain ⟨e, rest, items, y, hes, hlist, hrow, hcdr⟩ := filled_splice.mp h
      exact filled_splice.mpr
        ⟨e, rest, items, y, hes, hlist, (hrow.sameIn hst).mono hle, ihcdr hcdr⟩
    | none =>
      obtain ⟨es₁, es₂, x, y, hes, hrow, hcar, hcdr⟩ := (filled_pair hsplice).mp h
      exact (filled_pair hsplice).mpr
        ⟨es₁, es₂, x, y, hes, (hrow.sameIn hst).mono hle, ihcar hcar, ihcdr hcdr⟩
  | vector values list ih =>
    obtain ⟨a, v, rfl, ha, hrow, hlist⟩ := h
    refine ⟨a, v, rfl, hle.vectors a ha, ?_, ih hlist⟩
    rw [hst.vectorAt_eq a ha]
    exact (hrow.sameIn hst).mono hle

theorem Filled.make (h : T.Filled s own es w) (hs : s.Hides own) (hmakes : s.Makes own t more) :
    T.Filled t more es w := h.sameIn (hmakes.grows.sameIn hs) hmakes.le

theorem Filled.consed (h : T.Filled s own es w) (hT : T.IsList) :
    ∃ values, s.Consed own w values .null := by
  induction T generalizing es w with
  | atom v =>
    obtain rfl : v = .null := hT
    obtain ⟨-, rfl⟩ := h
    exact ⟨[], .nil⟩
  | pair car cdr _ ihcdr =>
    cases hsplice : car.splice? with
    | some operand =>
      obtain rfl := splice?_eq_some.mp hsplice
      obtain ⟨_, _, items, _, -, -, hrow, hcdr⟩ := filled_splice.mp h
      obtain ⟨values, hvalues⟩ := ihcdr hcdr hT
      exact ⟨items ++ values, hrow.append hvalues⟩
    | none =>
      obtain ⟨_, _, x, _, -, hrow, -, hcdr⟩ := (filled_pair hsplice).mp h
      obtain ⟨values, hvalues⟩ := ihcdr hcdr hT
      exact ⟨x :: values, hrow.append hvalues⟩
  | code | form | vector => exact hT.elim

/-- From the first store to the second the operands were evaluated from the left, and the value is
the template filled with what they came to, in cells of its own. -/
structure Fills (E : Value → Run) (T : Outline) (s t : Store) (own : Cells) (es : List Evaluation)
    (w : Value) : Prop where
  turns : Turns E s es t
  operands : es.map Evaluation.operand = T.operands
  fresh : s.Fresh own t
  filled : T.Filled t own es w

theorem run_fills (hE : ∀ B : Blind, B.toDiscipline.KeptByAll E) (hproper : T.Proper)
    (hs : s.All s.Located) (hT : T.Throughout s.Located) (h : T.run E s (.value w) t) :
    ∃ own es, Fills E T s t own es w := by
  -- Each part of the template owns what it has made, and no cell has two owners.
  induction T generalizing s t w with
  | atom v =>
    obtain ⟨rfl, rfl⟩ := Run.done_value.mp h
    exact ⟨.none, [], .none (.refl _), rfl, .none _ _, rfl, rfl⟩
  | code keyword operand =>
    rw [run] at h
    split at h
    · obtain ⟨_, _, hfails, -⟩ := Run.doing_value.mp h
      cases hfails
    · exact ⟨.none, [⟨operand, s, w, t⟩], .next (.refl s) h (.none (.refl t)), rfl, .none _ _, _,
        rfl, rfl⟩
  | form keyword inner ih =>
    obtain ⟨v, t₁, hv, h⟩ := Run.andThen_value.mp h
    obtain ⟨own, es, hfills⟩ := ih hproper hs hT hv
    obtain ⟨⟨ht₁, hst⟩, hlocated⟩ := inner.run_keeps (hE locating) hs hT v t₁ hv
    obtain ⟨rfl, rfl⟩ := Run.done_value.mp (Run.doing_lift.mp h)
    obtain ⟨more, hmakes, hrow⟩ := hfills.fresh.hides.listWithTail ht₁ [.name keyword.name, v] .null
      (List.forall_mem_cons.mpr ⟨trivial, List.forall_mem_singleton.mpr hlocated⟩) trivial
    exact ⟨more, es, hfills.turns.grow hmakes.grows, hfills.operands, hfills.fresh.make hst hmakes,
      v, hrow, hfills.filled.make hfills.fresh.hides hmakes⟩
  | pair car cdr ihcar ihcdr =>
    cases hsplice : car.splice? with
    | some operand =>
      obtain rfl := splice?_eq_some.mp hsplice
      rw [run_splice] at h
      obtain ⟨v, t₁, hv, h⟩ := Run.andThen_value.mp h
      obtain ⟨⟨ht₁, hst₁⟩, hlocated⟩ := hE locating _ _ hs hT.1 v t₁ hv
      obtain ⟨items, hlist, h⟩ := Run.spliced_value.mp h
      obtain ⟨y, t₂, hy, h⟩ := Run.andThen_value.mp h
      have hT₁ := hT.2.mono fun _ hu => locating.data_leads hst₁ hu
      obtain ⟨own, es, hfills⟩ := ihcdr hproper.2 ht₁ hT₁ hy
      obtain ⟨⟨ht₂, hst₂⟩, hrest⟩ := cdr.run_keeps (hE locating) ht₁ hT₁ y t₂ hy
      obtain ⟨rfl, rfl⟩ := Run.done_value.mp (Run.doing_lift.mp h)
      obtain ⟨more, hmakes, hrow⟩ := hfills.fresh.hides.listWithTail ht₂ items y
        (Discipline.all_leads hst₂ (Discipline.properList ht₁ hlocated hlist)) hrest
      exact ⟨more, ⟨operand, s, v, t₁⟩ :: es, .next (.refl s) hv (hfills.turns.grow hmakes.grows),
        congrArg (operand :: ·) hfills.operands,
        (hfills.fresh.earlier hst₁).make (locating.trans hst₁ hst₂) hmakes,
        _, es, items, y, rfl, hlist, hrow, hfills.filled.make hfills.fresh.hides hmakes⟩
    | none =>
      rw [run_pair hsplice] at h
      obtain ⟨x, t₁, hx, h⟩ := Run.andThen_value.mp h
      obtain ⟨own₁, es₁, hcar⟩ := ihcar hproper.1 hs hT.1 hx
      obtain ⟨⟨ht₁, hst₁⟩, hxlocated⟩ := car.run_keeps (hE locating) hs hT.1 x t₁ hx
      obtain ⟨y, t₂, hy, h⟩ := Run.andThen_value.mp h
      have hT₁ := hT.2.mono fun _ hu => locating.data_leads hst₁ hu
      obtain ⟨own₂, es₂, hcdr⟩ := ihcdr hproper.2 ht₁ hT₁ hy
      obtain ⟨⟨ht₂, hst₂⟩, hylocated⟩ := cdr.run_keeps (hE locating) ht₁ hT₁ y t₂ hy
      -- the rest of the template cannot touch what was made for the first item
      obtain ⟨⟨hhides, hsame⟩, -⟩ := cdr.run_keeps (hE (sparing own₁)) hcar.fresh.hides
        (hT.2.mono fun u hu hown => hcar.fresh.fresh u hown hu) y t₂ hy
      have hfresh : s.Fresh (own₁.union own₂) t₂ :=
        .union ⟨hcar.fresh.fresh, hhides⟩ (hcdr.fresh.earlier hst₁)
      obtain ⟨rfl, rfl⟩ := Run.done_value.mp (Run.doing_lift.mp h)
      obtain ⟨more, hmakes, hrow⟩ := hfresh.hides.listWithTail ht₂ [x] y
        (List.forall_mem_singleton.mpr (locating.data_leads hst₂ hxlocated)) hylocated
      refine ⟨more, es₁ ++ es₂, (hcar.turns.append hcdr.turns).grow hmakes.grows, ?_,
        hfresh.make (locating.trans hst₁ hst₂) hmakes, (filled_pair hsplice).mpr
          ⟨es₁, es₂, x, y, rfl, hrow, ?_, ?_⟩⟩
      · rw [List.map_append, hcar.operands, hcdr.operands]
        rfl
      · exact (hcar.filled.sameIn hsame Cells.le_union_left).make hfresh.hides hmakes
      · exact (hcdr.filled.sameIn (.refl t₂) Cells.le_union_right).make hfresh.hides hmakes
  | vector values list ih =>
    obtain ⟨_, hbuilt, -⟩ := (Store.Hides.none s).listWithTail hs values .null hT.1 trivial
    have ht₁ := hbuilt.located
    have hst₁ : locating.Leads s _ := ⟨hbuilt.grows.pairs_le, hbuilt.grows.vectors_le⟩
    rw [run, Run.doing_lift] at h
    obtain ⟨v, t₂, hv, h⟩ := Run.andThen_value.mp h
    have hT₁ := hT.2.mono fun _ hu => locating.data_leads hst₁ hu
    obtain ⟨own, es, hfills⟩ := ih hproper.2 ht₁ hT₁ hv
    obtain ⟨⟨ht₂, hst₂⟩, hvlocated⟩ := list.run_keeps (hE locating) ht₁ hT₁ v t₂ hv
    obtain ⟨items, hrow⟩ := hfills.filled.consed hproper.1
    have hlist : t₂.properList? v = some items :=
      Store.properList?_eq_some.mpr (hrow.chain (by simp))
    obtain ⟨rfl, rfl⟩ := (Run.vectorOfList_value hlist).mp h
    have hitems := Discipline.properList ht₂ hvlocated hlist
    have hmakes := hfills.fresh.hides.vector ht₂ items.toArray (by rwa [List.toList_toArray])
    refine ⟨_, es, .after hbuilt.grows (hfills.turns.grow hmakes.grows), hfills.operands,
      (hfills.fresh.earlier hst₁).make (locating.trans hst₁ hst₂) hmakes, _, v, rfl, .inl rfl, ?_,
      hfills.filled.make hfills.fresh.hides hmakes⟩
    rw [Store.vectorAt_push, if_pos rfl]
    exact (hrow.sameIn (hmakes.grows.sameIn hfills.fresh.hides)).mono hmakes.le

end Outline

end HygienicScheme
