import HygienicScheme.Proofs.Expansion.Effects
import HygienicScheme.Proofs.Quasiquote.Outlines

/-!
# Traversals of templates

The expander and the pass that settles stamps go over a template in the same way, and so they meet
the same code in it: each is the walk over the outline, with what it does to code and to atoms. The
two count their way down differently, the one every level and the other every step.
-/
namespace HygienicScheme

namespace Outline

variable (code atom : Position → Value → Action Value)

mutual

/-- Does one thing to the code of a template and another to its atoms, from the left, and builds
the template anew with the results. -/
def walk : Outline → Position → Action Value
  | .atom v, p => atom p v
  | .code keyword operand, p => do
    let w ← code (.operand :: p) operand
    Build.list [.name keyword.name, w]
  | .form keyword inner, p => do
    let w ← inner.walk (.operand :: p)
    Build.list [.name keyword.name, w]
  | .pair car cdr, p => do
    let x ← car.walk (.car :: p)
    let y ← cdr.walk (.cdr :: p)
    Build.cons x y
  | .vector _ list, p => do
    let ws ← list.walkItems 0 p
    Build.vector ws.toArray

def walkItems : Outline → Nat → Position → Action (List Value)
  | .pair item more, i, p => do
    let w ← item.walk (.item i :: p)
    let ws ← more.walkItems (i + 1) p
    return w :: ws
  | .atom _, _, _ | .code _ _, _, _ | .form _ _, _, _ | .vector _ _, _, _ => return []

end

variable {code atom} {code' : Position → Value → Action Value}

theorem walk_congr {T : Outline} {p : Position} (h : ∀ site ∈ T.sites p,
    code site.position site.operand = code' site.position site.operand) :
    T.walk code atom p = T.walk code' atom p := by
  suffices hboth : (∀ p, (∀ site ∈ T.sites p, code site.position site.operand =
        code' site.position site.operand) → T.walk code atom p = T.walk code' atom p) ∧
      ∀ i p, (∀ site ∈ T.itemSites i p, code site.position site.operand =
        code' site.position site.operand) → T.walkItems code atom i p = T.walkItems code' atom i p
    from hboth.1 p h
  clear h p
  induction T with
  | atom => exact ⟨fun _ _ => rfl, fun _ _ _ => rfl⟩
  | code keyword operand =>
    refine ⟨fun p h => ?_, fun _ _ _ => rfl⟩
    rw [walk, walk, h _ (.head _)]
  | form _ inner ih =>
    refine ⟨fun p h => ?_, fun _ _ _ => rfl⟩
    rw [walk, walk, ih.1 _ h]
  | pair car cdr ihcar ihcdr =>
    refine ⟨fun p h => ?_, fun i p h => ?_⟩
    · obtain ⟨hcar, hcdr⟩ := List.forall_mem_append.mp h
      rw [walk, walk, ihcar.1 _ hcar, ihcdr.1 _ hcdr]
    · obtain ⟨hcar, hcdr⟩ := List.forall_mem_append.mp h
      rw [walkItems, walkItems, ihcar.1 _ hcar, ihcdr.2 _ _ hcdr]
  | vector items list ih =>
    refine ⟨fun p h => ?_, fun _ _ _ => rfl⟩
    rw [walk, walk, ih.2 _ _ h]

end Outline

structure Traversal (s : Store) (depth : Nat) where
  visit : Position → Nat → Value → Action Value
  code : Position → Value → Action Value
  atom : Position → Value → Action Value
  expanding : ∀ p level v, (visit p level v).Expanding
  /-- The items of a vector are all visited in one way. -/
  item : ∀ p i j, visit (.item i :: p) = visit (.item j :: p)
  at_form : ∀ {p level v t keyword operand}, p.length < depth →
    t.quasiForm? v = some (keyword, operand) →
    visit p level v t =
      ((if keyword = .quasiquote then visit (.operand :: p) (level + 1) operand
        else if level = 1 then code (.operand :: p) operand
        else visit (.operand :: p) (level - 1) operand) >>= fun operand =>
          liftM (Build.list [.name keyword.name, operand]) : Action Value) t
  at_pair : ∀ {p level a t}, p.length < depth → t.quasiForm? (.pair a) = none →
    visit p level (.pair a) t =
      (do
        let x ← visit (.car :: p) level (t.pairAt a).car
        let y ← visit (.cdr :: p) level (t.pairAt a).cdr
        Build.cons x y : Action Value) t
  at_vector : ∀ {p level a t}, p.length < depth →
    visit p level (.vector a) t =
      ((t.vectorAt a).toList.mapM (visit (.item 0 :: p) level) >>= fun items =>
        liftM (Build.vector items.toArray) : Action Value) t
  at_atom : ∀ {p level v t}, p.length < depth → (∀ a, v ≠ .pair a) → (∀ a, v ≠ .vector a) →
    visit p level v t = atom p v t

namespace Traversal

open Reference (innerLevel)

variable {s t : Store} {depth level n : Nat} {v : Value} {T : Outline} {p : Position}

theorem below {place : Place} (h : p.length + (n + 1) < depth) :
    (place :: p).length + n < depth := by
  rw [List.length_cons]
  omega

theorem mapM_eq (R : Traversal s depth) {values : List Value} {items : List Outline} {i : Nat}
    (h : List.Forall₂ (fun v T => ∀ {p : Position} {t : Store}, p.length + n < depth → s.Grows t →
      R.visit p level v t = Outline.walk R.code R.atom T p t) values items)
    (hp : p.length + (n + 1) < depth) (hg : s.Grows t) :
    values.mapM (R.visit (.item 0 :: p) level) t =
      (Outline.ofList items).walkItems R.code R.atom i p t := by
  induction h generalizing t i with
  | nil => rfl
  | @cons v T values items hfirst hmore ih =>
    rw [List.mapM_cons, Outline.ofList, Outline.walkItems, R.item p 0 i]
    refine Action.bind_congr (hfirst (below hp) hg) fun w t₁ hw => ?_
    have hg₁ := hg.trans ((R.expanding _ _ _).of_ok hw).toGrows
    rw [R.item p i 0]
    exact Action.bind_congr (ih hg₁) fun _ _ _ => rfl

theorem visit_eq (R : Traversal s depth) (h : Outlined s.Grows level v T) (hn : s.Within n v)
    (hp : p.length + n < depth) (hg : s.Grows t) :
    R.visit p level v t = T.walk R.code R.atom p t := by
  induction h generalizing p n t with
  | atom hpair hvector => exact R.at_atom (Nat.lt_of_add_right_lt hp) hpair hvector
  | @code _ v operand keyword hlevel hk hform =>
    rw [R.at_form (Nat.lt_of_add_right_lt hp) (hform t hg), if_neg hk, if_pos hlevel]
    rfl
  | @form level v operand keyword inner hk hform _ ih =>
    have hhere := hform s (.refl s)
    -- The traversal changes the level as `innerLevel` says.
    have hvisit : (if keyword = .quasiquote then R.visit (.operand :: p) (level + 1) operand
        else if level = 1 then R.code (.operand :: p) operand
        else R.visit (.operand :: p) (level - 1) operand) =
        R.visit (.operand :: p) (innerLevel keyword level) operand := by
      unfold innerLevel
      by_cases hq : keyword = .quasiquote
      · rw [if_pos hq, if_pos hq]
      · rw [if_neg hq, if_neg hq, if_neg (hk.resolve_left hq)]
    rw [R.at_form (Nat.lt_of_add_right_lt hp) (hform t hg), hvisit]
    cases n with
    | zero =>
      obtain ⟨a, rfl⟩ := Store.quasiForm?_pair hhere
      exact absurd rfl (hn.1 a)
    | succ n => exact Action.bind_congr (ih (hn.operand hhere) (below hp) hg) fun _ _ _ => rfl
  | @pair level a q car cdr hform hpair _ _ ihcar ihcdr =>
    rw [R.at_pair (Nat.lt_of_add_right_lt hp) (hform t hg), hpair t hg]
    obtain rfl := hpair s (.refl s)
    cases n with
    | zero => exact absurd rfl (hn.1 a)
    | succ n =>
      refine Action.bind_congr (ihcar hn.1 (below hp) hg) fun x t₁ hx => ?_
      have hg₁ := hg.trans ((R.expanding _ _ _).of_ok hx).toGrows
      exact Action.bind_congr (ihcdr hn.2 (below hp) hg₁) fun _ _ _ => rfl
  | @vector level a values items hvector _ hlength _ ih =>
    rw [R.at_vector (Nat.lt_of_add_right_lt hp), hvector t hg]
    obtain rfl := hvector s (.refl s)
    cases n with
    | zero => exact absurd rfl (hn.2 a)
    | succ n =>
      refine Action.bind_congr (R.mapM_eq (n := n) ?_ hp hg) fun _ _ _ => rfl
      refine List.forall₂_iff_zip.mpr ⟨hlength, fun {w T} hwT p t hp hg => ?_⟩
      exact ih w T hwT (hn w (List.of_mem_zip hwT).1) hp hg

end Traversal

/-- The levels on the way down to a position. The rest of a list is no deeper than the list. -/
def Position.levels (p : Position) : Nat := p.countP (· ≠ .cdr)

section Instances

variable {s t : Store} {v : Value} {T : Outline} {p : Position} {depth n : Nat}

theorem left_succ (h : p.length < depth) (place : Place) :
    depth - p.length = depth - (place :: p).length + 1 := by
  rw [List.length_cons]
  omega

theorem levels_cdr (p : Position) : Position.levels (.cdr :: p) = p.levels :=
  List.countP_cons_of_neg (by simp)

theorem room_levels {room : Nat} {place : Place} (h : place ≠ .cdr) :
    room - Position.levels (place :: p) = room - p.levels - 1 := by
  rw [Position.levels, List.countP_cons_of_pos (by simpa using h), Nat.sub_add_eq]
  rfl

def Expansion.traversal (env : Environment) (room fuel : Nat) (s : Store) : Traversal s fuel where
  visit p level v := expandTemplate env (room - p.levels) (fuel - p.length) level v
  code p v := expand env (room - p.levels) v
  atom _ v := pure v
  expanding p level v := (expanding env (room - p.levels)).2 _ level v
  item _ _ _ := rfl
  at_form hp hform := by
    rw [left_succ hp .operand, expandTemplate_form hform, room_levels (by simp)]
  at_pair hp hform := by
    rw [left_succ hp .car, expandTemplate_pair hform, room_levels (by simp), levels_cdr]
    rfl
  at_vector hp := by
    rw [left_succ hp (.item 0), expandTemplate_vector, room_levels (by simp)]
  at_atom hp hpair hvector := by
    rw [left_succ hp .car, expandTemplate_leaf hpair hvector]

def Renaming.traversal (bound : List Symbol) (depth : Nat) (s : Store) : Traversal s depth where
  visit p level v := template bound (depth - p.length) level v
  code p v := Renaming.code bound (depth - p.length) v
  atom p v := strip (depth - p.length - 1) v
  expanding p level v := expanding_template bound _ level v
  item _ _ _ := rfl
  at_form hp hform := by rw [left_succ hp .operand, template_form hform]
  at_pair hp hform := by
    rw [left_succ hp .car, template_pair hform]
    rfl
  at_vector hp := by rw [left_succ hp (.item 0), template_vector]
  at_atom hp hpair hvector := by
    rw [left_succ hp .car, template_leaf hpair hvector]
    rfl

theorem Expansion.expandTemplate_eq_walk {env : Environment} {room fuel : Nat}
    (h : Outlined s.Grows 1 v T) (hn : s.Within n v) (hfuel : n < fuel) :
    expandTemplate env room fuel 1 v s =
      T.walk (fun p => expand env (room - p.levels)) (fun _ => pure) [] s :=
  (traversal env room fuel s).visit_eq (p := []) h hn (by simpa using hfuel) (.refl s)

/-- The pass that settles stamps takes the same parts for code, and clears the stamps of all
others. -/
theorem Renaming.template_eq_walk {bound : List Symbol} (h : Outlined s.Grows 1 v T)
    (hn : s.Within n v) (hdepth : n < depth) :
    template bound depth 1 v s =
      T.walk (fun p => Renaming.code bound (depth - p.length))
        (fun p => strip (depth - p.length - 1)) [] s :=
  (traversal bound depth s).visit_eq (p := []) h hn (by simpa using hdepth) (.refl s)

end Instances

end HygienicScheme
