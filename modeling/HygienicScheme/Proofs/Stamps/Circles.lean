import HygienicScheme.Proofs.Expansion.Equations
import HygienicScheme.Proofs.Quasiquote.Outlines
import HygienicScheme.Proofs.Stamps.Stripping
import HygienicScheme.Proofs.Store.Circles

/-!
# Settling the stamps of circular forms

Lists that are circular along their tails are left alone. Other circles are not noticed: the passes
end on a form that unfolds, if the templates in it do so pair by pair, and where a form goes around
through an item they do not.
-/
namespace HygienicScheme

namespace Renaming

variable {s t u : Store} {v w tail : Value} {items : List Value} {m n : Nat}

theorem mapM_decides {α : Type} {f : Value → Option α} (h : ∀ v ∈ items, ∃ a, f v = some a) :
    ∃ as, items.mapM f = some as := by
  induction items with
  | nil => exact ⟨[], rfl⟩
  | cons v more ih =>
    obtain ⟨⟨a, ha⟩, hmore⟩ := List.forall_mem_cons.mp h
    obtain ⟨as, has⟩ := ih hmore
    exact ⟨a :: as, by simp [List.mapM_cons, ha, has]⟩

theorem binders_decides (h : s.PartsWithin n v) (hm : n < m) :
    ∃ bound, binders s m v = some bound := by
  induction m generalizing n v with
  | zero => exact absurd hm (Nat.not_lt_zero n)
  | succ m ih =>
    cases v with
    | pair a =>
      rw [binders]
      cases hsplit : s.splitList? (.pair a) with
      | none => exact ⟨[], rfl⟩
      | some found =>
        obtain ⟨items, tail⟩ := found
        have hparts : s.partsOf (.pair a) = items ++ [tail] :=
          Store.partsOf_chain (Store.splitList?_eq_some.mp hsplit)
        have heach : ∀ w ∈ items ++ [tail], ∃ bound, binders s m w = some bound := by
          intro w hw
          rw [← hparts] at hw
          cases n with
          | zero => exact absurd hw (Store.Leaf.not_part h)
          | succ n => exact ih (h w hw) (Nat.lt_of_succ_lt_succ hm)
        have hbody : ∀ w ∈ items.drop 2, ∃ bound, binders s m w = some bound := fun w hw =>
          heach w (List.mem_append_left _ (List.mem_of_mem_drop hw))
        obtain ⟨xs, hxs⟩ := mapM_decides hbody
        obtain ⟨ys, hys⟩ := mapM_decides heach
        dsimp only
        cases Head.ofItems items <;> simp only [hxs, hys] <;> exact ⟨_, rfl⟩
    | _ => exact ⟨[], rfl⟩

inductive CodePart (s : Store) : Value → Value → Prop
  | intro {a : Address} {items : List Value} {tail w : Value}
      (hchain : s.Chain (.pair a) items tail) (hform : Form.of items tail = .other)
      (hw : w ∈ items ∨ w = tail) : CodePart s (.pair a) w

theorem CodePart.part (h : CodePart s v w) : s.Part v w := by
  cases h with
  | intro hchain _ hw => exact Store.part_pair.mpr ⟨_, _, hchain, hw⟩

theorem part_of_quasiquote {a : Address} (hchain : s.Chain (.pair a) items tail)
    (hform : Form.of items tail = .quasiquote v) : s.Part (.pair a) v := by
  obtain ⟨head, rfl⟩ := Form.of_quasiquote hform
  exact Store.part_pair.mpr ⟨_, tail, hchain, .inl (by simp)⟩

def TemplatesUnfold (s : Store) (v : Value) : Prop :=
  ∀ w, Relation.ReflTransGen (CodePart s) v w → ∀ items tail t, s.Chain w items tail →
    Form.of items tail = .quasiquote t → s.Tree t

section Code

variable {bound : List Symbol} {level : Nat}

theorem code_circular {a : Address} (h : s.splitList? (.pair a) = none) :
    code bound (m + 1) (.pair a) s = .ok (.pair a) s := by
  rw [code, Action.get_bind, h]
  rfl

theorem code_list_succeeds {a : Address} (hv : s.Inside (.pair a))
    (hstrip : ∀ w, s.Part (.pair a) w → (strip m w).Succeeds s)
    (htemplate : ∀ items tail t, s.Chain (.pair a) items tail →
      Form.of items tail = .quasiquote t → (template bound m 1 t).Succeeds s)
    (hcode : ∀ w, CodePart s (.pair a) w → (code bound m w).Succeeds s) :
    (code bound (m + 1) (.pair a)).Succeeds s := by
  intro t hg
  cases hsplit : s.splitList? (.pair a) with
  | none =>
    exact ⟨_, t, code_circular ((hv.splitList?_grows hg).trans hsplit)⟩
  | some found =>
    obtain ⟨items, tail⟩ := found
    have hchain := Store.splitList?_eq_some.mp hsplit
    rw [code_pair ((hv.splitList?_grows hg).trans hsplit)]
    cases hform : Form.of items tail with
    | quote data =>
      obtain ⟨head, rfl⟩ := Form.of_quote hform
      have hdata : ∀ w ∈ data, (strip m w).Succeeds s := fun w hw =>
        hstrip w (Store.part_pair.mpr ⟨_, tail, hchain, .inl (List.mem_cons_of_mem _ hw)⟩)
      have htail : (strip m tail).Succeeds s :=
        hstrip tail (Store.part_pair.mpr ⟨_, tail, hchain, .inr rfl⟩)
      exact (rebuild_succeeds (expanding_strip m) hdata htail).bind
        (expanding_rebuild (expanding_strip m) _ _) (fun _ => .lift) t hg
    | quasiquote template =>
      exact (htemplate items tail template hchain hform).bind (expanding_template bound m 1 _)
        (fun _ => .lift) t hg
    | definition => exact ⟨_, t, rfl⟩
    | other =>
      exact rebuild_succeeds (expanding_code bound m)
        (fun w hw => hcode w (.intro hchain hform (.inl hw)))
        (hcode tail (.intro hchain hform (.inr rfl))) t hg

theorem code_leaf_succeeds (hv : Store.Leaf v) : (code bound (m + 1) v).Succeeds s := by
  intro t _
  unfold code
  cases v with
  | pair a => exact absurd rfl (hv.1 a)
  | vector a => exact absurd rfl (hv.2 a)
  | _ => exact ⟨_, t, rfl⟩

theorem code_vector {a : Address} : code bound (m + 1) (.vector a) = strip m (.vector a) := by
  conv_lhs => unfold code

theorem template_succeeds (hv : s.Tree v) (hn : s.Within n v) (hstrip : (strip m v).Succeeds s)
    (hcode : ∀ k w, n = k + 1 → s.Tree w → s.Within k w → (code bound m w).Succeeds s)
    (htemplate : ∀ k w level, n = k + 1 → s.Tree w → s.Within k w →
      (template bound m level w).Succeeds s) : (template bound (m + 1) level v).Succeeds s := by
  intro t hg
  cases hform : s.quasiForm? v with
  | some q =>
    obtain ⟨keyword, operand⟩ := q
    rw [template_form ((hg.quasiForm?_eq hv).trans hform)]
    obtain ⟨a, rfl⟩ := Store.quasiForm?_pair hform
    cases n with
    | zero => exact absurd rfl (hn.1 a)
    | succ k =>
      have hoperand := hv.operand hform
      have hbelow := hn.operand hform
      split_ifs
      · exact (htemplate k _ _ rfl hoperand hbelow).bind (expanding_template bound m _ _)
          (fun _ => .lift) t hg
      · exact (hcode k _ rfl hoperand hbelow).bind (expanding_code bound m _) (fun _ => .lift) t hg
      · exact (htemplate k _ _ rfl hoperand hbelow).bind (expanding_template bound m _ _)
          (fun _ => .lift) t hg
  | none =>
    have hform := (hg.quasiForm?_eq hv).trans hform
    cases v with
    | pair a =>
      cases n with
      | zero => exact absurd rfl (hn.1 a)
      | succ k =>
        rw [template_pair hform, hg.pairAt_eq hv.pair_lt]
        have hcar := htemplate k _ level rfl hv.car hn.1
        have hcdr := htemplate k _ level rfl hv.cdr hn.2
        exact hcar.bind (expanding_template bound m _ _)
          (fun _ => hcdr.bind (expanding_template bound m _ _) fun _ => .lift) t hg
    | vector a =>
      cases n with
      | zero => exact absurd rfl (hn.2 a)
      | succ k =>
        rw [template_vector, hg.vectorAt_eq hv.vector_lt]
        have hitems : ∀ w ∈ (s.vectorAt a).toList, (template bound m level w).Succeeds s :=
          fun w hw => htemplate k w level rfl (hv.item hw) (hn w hw)
        exact (Action.Succeeds.mapM (fun _ => expanding_template bound m level _) hitems).bind
          (.mapM (fun _ => expanding_template bound m level _) _) (fun _ => .lift) t hg
    | _ =>
      rw [template_leaf (by simp) (by simp)]
      exact hstrip t hg

theorem code_template_tree (m : Nat) :
    (∀ {n v}, s.Tree v → s.Within n v → n + 2 ≤ m → (code bound m v).Succeeds s) ∧
      ∀ {n level v}, s.Tree v → s.Within n v → n + 2 ≤ m →
        (template bound m level v).Succeeds s := by
  induction m with
  | zero => exact ⟨fun _ _ hm => absurd hm (by omega), fun _ _ hm => absurd hm (by omega)⟩
  | succ m ih =>
    obtain ⟨ihcode, ihtemplate⟩ := ih
    constructor
    · intro n v hv hn hm
      cases v with
      | pair a =>
        cases n with
        | zero => exact absurd rfl (hn.1 a)
        | succ n =>
          refine code_list_succeeds hv.inside (fun w hw => ?_) (fun items tail t hchain hform => ?_)
            fun w hw => ?_
          · exact strip_succeeds (hv.part hw).inside (hn.part hw).partsWithin (by omega)
          · have ht : s.Part (.pair a) t := part_of_quasiquote hchain hform
            exact ihtemplate (hv.part ht) (hn.part ht) (by omega)
          · exact ihcode (hv.part hw.part) (hn.part hw.part) (by omega)
      | vector a =>
        rw [code_vector]
        exact strip_succeeds hv.inside hn.partsWithin (by omega)
      | _ => exact code_leaf_succeeds ⟨nofun, nofun⟩
    · intro n level v hv hn hm
      refine template_succeeds hv hn (strip_succeeds hv.inside hn.partsWithin (by omega)) ?_ ?_
      · exact fun k w hk hw hbelow => ihcode hw hbelow (by omega)
      · exact fun k w level hk hw hbelow => ihtemplate hw hbelow (by omega)

theorem code_succeeds (hv : s.Inside v) (h : s.PartsWithin n v) (ht : TemplatesUnfold s v)
    (hm : n + (s.cells + 2) < m) : (code bound m v).Succeeds s := by
  induction m generalizing n v with
  | zero => exact absurd hm (Nat.not_lt_zero _)
  | succ m ih =>
    cases v with
    | pair a =>
      have hpos : ∀ w, s.Part (.pair a) w → ∃ k, n = k + 1 ∧ s.PartsWithin k w := by
        intro w hw
        cases n with
        | zero => exact absurd hw (Store.Leaf.not_part h)
        | succ k => exact ⟨k, rfl, h w hw⟩
      refine code_list_succeeds hv (fun w hw => ?_) (fun items tail t hchain hform => ?_)
        fun w hw => ?_
      · obtain ⟨k, rfl, hk⟩ := hpos w hw
        exact strip_succeeds (hv.part hw) hk (by omega)
      · have htree : s.Tree t := ht _ .refl items tail t hchain hform
        exact (code_template_tree m).2 htree htree.within (by omega)
      · obtain ⟨k, rfl, hk⟩ := hpos w hw.part
        exact ih (hv.part hw.part) hk (fun u hu => ht u (.head hw hu)) (by omega)
    | vector a =>
      rw [code_vector]
      exact strip_succeeds hv h (by omega)
    | _ => exact code_leaf_succeeds ⟨nofun, nofun⟩

end Code

theorem leaves_circular_list (h : s.Circular v) : s.isStamped? v = some false ∧
    stripStamps v s = .ok v s ∧ renameIntroduced v s = .ok v s := by
  have hsplit := Store.splitList?_eq_none.mpr h
  obtain ⟨m, hm⟩ := s.exists_walkBound
  obtain ⟨a, rfl⟩ : ∃ a, v = .pair a := by
    by_contra hv
    rw [Store.splitList?_eq_some.mpr (.tail (not_exists.mp hv))] at hsplit
    cases hsplit
  have hsearch : s.isStamped? (.pair a) = some false := by
    rw [Store.isStamped?, hm, Store.stampedWithin_partsOf (by simp), Store.partsOf, hsplit]
    rfl
  refine ⟨hsearch, ?_, ?_⟩
  · change strip s.walkBound (.pair a) s = _
    rw [hm]
    exact strip_unstamped hsearch
  · unfold renameIntroduced
    rw [Action.get_bind, hsearch]
    rfl

theorem renameIntroduced_ends (hv : s.Inside v) (h : s.Unfolds v) (ht : TemplatesUnfold s v) :
    ∃ w t, renameIntroduced v s = .ok w t := by
  obtain ⟨b, hb⟩ := h.isStamped? hv
  have hparts := h.partsWithin hv
  have hbound : s.cells + (s.cells + 2) < s.walkBound := by
    have htwice := Nat.mul_le_mul_left (s.cells + 2) (Nat.le_add_left 2 s.cells)
    rw [Store.walkBound]
    omega
  unfold renameIntroduced
  rw [Action.get_bind, hb, Action.ended_some_bind]
  cases b with
  | false => exact ⟨v, s, rfl⟩
  | true =>
    obtain ⟨bound, hbinders⟩ := binders_decides hparts (by omega : s.cells < s.walkBound)
    simp only [if_true]
    rw [hbinders, Action.ended_some_bind]
    exact code_succeeds hv hparts ht hbound s (.refl s)

/-- What the passes over an expanded form come to the end of. -/
structure Endings (s : Store) (v : Value) : Prop where
  /-- Lists that are circular along their tails are left as they are. -/
  circular_list : s.Circular v → s.isStamped? v = some false ∧ stripStamps v s = .ok v s ∧
    renameIntroduced v s = .ok v s
  search : s.Unfolds v → ∃ b, s.isStamped? v = some b
  strip : s.Unfolds v → ∃ w t, stripStamps v s = .ok w t
  rename : s.Unfolds v → TemplatesUnfold s v → ∃ w t, renameIntroduced v s = .ok w t
  /-- From circles through items of lists and vectors there is no way out. -/
  endless_strip : ¬ s.Unfolds v → ∃ t, stripStamps v s = .error .endless t
  /-- Only a stamp that is found before can end the search. -/
  endless_search : ¬ s.Unfolds v → s.Stampless v → s.isStamped? v = none
  endless_rename : ¬ s.Unfolds v → s.Stampless v → renameIntroduced v s = .error .endless s

/-- On every value whose cells lie in the store the passes end exactly so. -/
theorem endings_of_inside (hv : s.Inside v) : Endings s v where
  circular_list := leaves_circular_list
  search h := h.isStamped? hv
  strip := (stripStamps_ends hv).1
  rename := renameIntroduced_ends hv
  endless_strip := (stripStamps_ends hv).2
  endless_search hnot h := (h.isStamped?_eq_none hv).mpr hnot
  endless_rename hnot h := by
    unfold renameIntroduced
    rw [Action.get_bind, (h.isStamped?_eq_none hv).mpr hnot]
    rfl

def selfish : Store :=
  { Store.empty with
    pairs := #[⟨.name "quote", .pair 1⟩, ⟨.vector 0, .null⟩]
    vectors := #[#[.vector 0]] }

theorem selfish_reaches : selfish.Throughout
    (fun v => v ∈ [Value.pair 0, .pair 1, .vector 0, .name "quote", .null]) (.pair 0) := by
  refine Store.Throughout.of_invariant ?_ (by simp)
  intro v w hv hw
  cases hw with
  | @car a | @cdr a =>
    obtain rfl | rfl : a = 0 ∨ a = 1 := by simpa [Value.name] using hv
    · simp [Store.pairAt, selfish]
    · simp [Store.pairAt, selfish]
  | @item a _ hmem =>
    obtain rfl : a = 0 := by simpa [Value.name] using hv
    simp_all [Store.vectorAt, selfish]

/-- The search never comes to the end of it, and so it is not settled. -/
theorem endings_of_inside_selfish : selfish.Inside (.pair 0) ∧ ¬ selfish.Unfolds (.pair 0) ∧
    renameIntroduced (.pair 0) selfish = .error .endless selfish := by
  have hinside : selfish.Inside (.pair 0) := selfish_reaches.mono fun w hw => by
    simp only [List.mem_cons, List.not_mem_nil, or_false] at hw
    rcases hw with rfl | rfl | rfl | rfl | rfl <;> simp [Store.Located, selfish, Value.name]
  have hnot : ¬ selfish.Unfolds (.pair 0) := by
    have hchain : selfish.Chain (.pair 0) [.name "quote", .vector 0] .null :=
      .pair (.pair (.tail (by simp [selfish, Store.pairAt])))
    have hpart : selfish.Part (.pair 0) (.vector 0) :=
      Store.part_pair.mpr ⟨_, _, hchain, .inl (by simp)⟩
    have hround : selfish.Part (.vector 0) (.vector 0) := List.mem_singleton.mpr rfl
    exact fun h => not_below_self (acc_of_reached h (.single hpart)) (.single hround)
  have hstampless : selfish.Stampless (.pair 0) := by
    intro x hx
    have hmem := (selfish_reaches.reached hx).here
    obtain rfl : x = .user "quote" := by simpa [Value.name] using hmem
    rfl
  exact ⟨hinside, hnot, (endings_of_inside hinside).endless_rename hnot hstampless⟩

end Renaming

end HygienicScheme
