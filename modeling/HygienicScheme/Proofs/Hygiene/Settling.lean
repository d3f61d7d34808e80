import HygienicScheme.Proofs.Expansion.Equations
import HygienicScheme.Proofs.Hygiene.Agreement

/-!
# Settling the stamps on both sides

Taking the stamps off an expanded form and off its renaming gives related forms, as long as the
renaming fixes the names of the identifiers that lose their stamps. Such an identifier becomes a
name like any that a user wrote, and the renaming would change it.
-/
namespace HygienicScheme

variable {π : Equiv.Perm String} {s t s' t' : Store} {v w r tail tail' : Value}
  {items items' : List Value} {n m m' : Nat}

inductive Store.Unstamps (s : Store) : Value → Value → String → Prop
  | symbol {x y : Symbol} (hx : x.isStamped) (hy : y.isStamped = false) :
      Unstamps s (.symbol x) (.symbol y) x.name
  | car {a b : Address} {name : String} (ha : a < s.pairs.size) (hb : b < s.pairs.size)
      (h : Unstamps s (s.pairAt a).car (s.pairAt b).car name) : Unstamps s (.pair a) (.pair b) name
  | cdr {a b : Address} {name : String} (ha : a < s.pairs.size) (hb : b < s.pairs.size)
      (h : Unstamps s (s.pairAt a).cdr (s.pairAt b).cdr name) : Unstamps s (.pair a) (.pair b) name
  | item {a b : Address} {v w : Value} {name : String} (ha : a < s.vectors.size)
      (hb : b < s.vectors.size) (hvw : (v, w) ∈ (s.vectorAt a).toList.zip (s.vectorAt b).toList)
      (h : Unstamps s v w name) : Unstamps s (.vector a) (.vector b) name

theorem Store.Unstamps.grow {name : String} (h : s.Unstamps v w name) (hg : s.Grows t) :
    t.Unstamps v w name := by
  induction h with
  | symbol hx hy => exact symbol hx hy
  | car ha hb _ ih =>
    rw [← hg.pairAt_eq ha, ← hg.pairAt_eq hb] at ih
    exact car (Nat.lt_of_lt_of_le ha hg.pairs_le) (Nat.lt_of_lt_of_le hb hg.pairs_le) ih
  | cdr ha hb _ ih =>
    rw [← hg.pairAt_eq ha, ← hg.pairAt_eq hb] at ih
    exact cdr (Nat.lt_of_lt_of_le ha hg.pairs_le) (Nat.lt_of_lt_of_le hb hg.pairs_le) ih
  | item ha hb hvw _ ih =>
    rw [← hg.vectorAt_eq ha, ← hg.vectorAt_eq hb] at hvw
    exact item (Nat.lt_of_lt_of_le ha hg.vectors_le) (Nat.lt_of_lt_of_le hb hg.vectors_le) hvw ih

def Settled (π : Equiv.Perm String) (v : Value) : Relation Value Value := fun s t r r' =>
  (∀ name, s.Unstamps v r name → π name = name) → Renamed π s t r r'

theorem Settled.stable (π : Equiv.Perm String) (v : Value) : (Settled π v).Stable :=
  fun _ _ _ _ _ _ hs ht h hlost =>
    (h fun name hname => hlost name (hname.grow hs)).grow hs ht

theorem Settled.unstamped (x : Symbol) :
    Settled π (.symbol x) s t (.symbol x.unstamped) (.symbol (x.rename π).unstamped) := by
  intro hlost
  have h : Renamed π s t (.symbol x.unstamped) (.symbol (x.unstamped.rename π)) := .symbol _
  by_cases hx : x.isStamped
  · have hfixed : π x.name = x.name := hlost x.name (.symbol hx rfl)
    rw [Symbol.rename_of_stamped hx]
    rwa [Symbol.unstamped, Symbol.rename_user hfixed] at h
  · rw [Symbol.rename_of_unstamped (Bool.eq_false_iff.mpr hx)]
    exact h

theorem Settled.name {keyword : String} (hkeyword : π keyword = keyword) (v : Value) :
    Settled π v s t (.name keyword) (.name keyword) := by
  have h : Renamed π s t (.name keyword) _ := .symbol (.user keyword)
  rw [Symbol.rename_user hkeyword] at h
  exact fun _ => h

theorem Settled.forall₂ {results results' : List Value} {last : Value}
    (hrows : Rows (fun v => Settled π v s t) items results results') (hv : s.Spine v items tail)
    (hr : s.Spine r results last) (hlost : ∀ name, s.Unstamps v r name → π name = name) :
    List.Forall₂ (Renamed π s t) results results' ∧
      ∀ name, s.Unstamps tail last name → π name = name := by
  induction hrows generalizing v r with
  | nil =>
    cases hv
    cases hr
    exact ⟨.nil, hlost⟩
  | cons hrow _ ih =>
    cases hv with
    | cons ha hv =>
      cases hr with
      | cons hb hr =>
        have hhead := hrow fun name hname => hlost name (.car ha hb hname)
        obtain ⟨hmore, hlast⟩ := ih hv hr fun name hname => hlost name (.cdr ha hb hname)
        exact ⟨.cons hhead hmore, hlast⟩

theorem Settled.forall₂_of_zip {results results' : List Value}
    (hrows : Rows (fun v => Settled π v s t) items results results')
    (hlost : ∀ v r, (v, r) ∈ items.zip results → ∀ name, s.Unstamps v r name → π name = name) :
    List.Forall₂ (Renamed π s t) results results' := by
  induction hrows with
  | nil => exact .nil
  | cons hrow _ ih =>
    refine .cons (hrow (hlost _ _ List.mem_cons_self)) (ih fun v r hvr => ?_)
    exact hlost v r (List.mem_cons_of_mem _ hvr)

def Below (π : Equiv.Perm String) (n : Nat) : Relation Value Value := fun s t v w =>
  Renamed π s t v w ∧ s.Within n v

theorem Below.stable (π : Equiv.Perm String) (n : Nat) : (Below π n).Stable :=
  fun _ _ _ _ _ _ hs ht h => ⟨h.1.grow hs ht, h.2.grow h.1.tree_left hs⟩

namespace Renamed

theorem within_iff (h : Renamed π s t v w) : t.Within n w ↔ s.Within n v := by
  induction h generalizing n with
  | @constant v h =>
    have hv : (∀ a, v ≠ .pair a) ∧ ∀ a, v ≠ .vector a := by
      constructor <;> rintro a rfl <;> cases h
    exact iff_of_true (Store.within_leaf hv.1 hv.2) (Store.within_leaf hv.1 hv.2)
  | string | symbol =>
    exact iff_of_true (Store.within_leaf (by simp) (by simp))
      (Store.within_leaf (by simp) (by simp))
  | pair _ _ _ _ hcar hcdr =>
    cases n with
    | zero => exact iff_of_false (fun h => h.1 _ rfl) fun h => h.1 _ rfl
    | succ n => exact and_congr hcar hcdr
  | @vector a b _ _ hsize _ ih =>
    cases n with
    | zero => exact iff_of_false (fun h => h.2 _ rfl) fun h => h.2 _ rfl
    | succ n =>
      constructor
      · intro h v hv
        obtain ⟨p, hp, rfl⟩ :=
          List.mem_map.mp ((List.map_fst_zip (Nat.le_of_eq hsize)).symm ▸ hv)
        exact (ih p.1 p.2 hp).mp (h p.2 (List.of_mem_zip hp).2)
      · intro h w hw
        obtain ⟨p, hp, rfl⟩ :=
          List.mem_map.mp ((List.map_snd_zip (Nat.le_of_eq hsize.symm)).symm ▸ hw)
        exact (ih p.1 p.2 hp).mpr (h p.1 (List.of_mem_zip hp).1)

theorem exists_within (h : Renamed π s t v w) :
    ∃ n, s.Within n v ∧ n + 1 < s.walkBound ∧ n + 1 < t.walkBound := by
  have hs := s.cells_lt_walkBound
  have ht := t.cells_lt_walkBound
  by_cases hcells : s.cells ≤ t.cells
  · exact ⟨s.cells, h.tree_left.within, by omega, by omega⟩
  · exact ⟨t.cells, h.within_iff.mp h.tree_right.within, by omega, by omega⟩

theorem parts {a b : Address} (h : Renamed π s t (.pair a) (.pair b))
    (hn : s.Within (n + 1) (.pair a)) :
    ∃ items tail items' tail', s.splitList? (.pair a) = some (items, tail) ∧
      t.splitList? (.pair b) = some (items', tail') ∧
      List.Forall₂ (Below π n s t) items items' ∧ Below π n s t tail tail' := by
  obtain ⟨items, tail, items', tail', hs, ht, hitems, htail⟩ := h.splitList
  obtain ⟨hbelow, hbelow'⟩ := hn.parts (Store.splitList?_eq_some.mp hs)
  refine ⟨items, tail, items', tail', hs, ht, ?_, htail, hbelow'⟩
  exact ((List.forall₂_and_left _ _).mpr ⟨hbelow, hitems⟩).imp fun _ _ h => ⟨h.2, h.1⟩

end Renamed

def Agrees {α : Type} (x y : Option α) : Prop := ∃ a, x = some a ∧ y = some a

theorem Store.anyOf_agrees {f g : Value → Option Bool}
    (h : List.Forall₂ (fun v w => Agrees (f v) (g w)) items items') :
    Agrees (anyOf f items) (anyOf g items') := by
  induction h with
  | nil => exact ⟨false, rfl, rfl⟩
  | cons hvw _ ih =>
    obtain ⟨b, hf, hg⟩ := hvw
    rw [anyOf, anyOf, hf, hg]
    cases b with
    | true => exact ⟨true, rfl, rfl⟩
    | false => exact ih

theorem mapM_agrees {α : Type} {f g : Value → Option α}
    (h : List.Forall₂ (fun v w => Agrees (f v) (g w)) items items') :
    Agrees (items.mapM f) (items'.mapM g) := by
  induction h with
  | nil => exact ⟨[], rfl, rfl⟩
  | cons hvw _ ih =>
    obtain ⟨a, hf, hg⟩ := hvw
    obtain ⟨as, hfs, hgs⟩ := ih
    exact ⟨a :: as, by simp [List.mapM_cons, hf, hfs], by simp [List.mapM_cons, hg, hgs]⟩

theorem Renamed.stampedWithin (h : Renamed π s t v w) (hn : s.Within n v) (hm : n < m)
    (hm' : n < m') : Agrees (s.stampedWithin m v) (t.stampedWithin m' w) := by
  induction m generalizing n m' v w with
  | zero => exact absurd hm (Nat.not_lt_zero n)
  | succ m ih =>
    obtain ⟨m', rfl⟩ : ∃ k, m' = k + 1 := ⟨m' - 1, by omega⟩
    have hparts : ∀ {k items items'}, k < m → k < m' →
        List.Forall₂ (Below π k s t) items items' →
        Agrees (Store.anyOf (s.stampedWithin m) items) (Store.anyOf (t.stampedWithin m') items') :=
      fun hk hk' hitems => Store.anyOf_agrees (hitems.imp fun _ _ h => ih h.1 h.2 hk hk')
    cases h with
    | constant h => cases v <;> first | exact ⟨false, rfl, rfl⟩ | cases h
    | string => exact ⟨false, rfl, rfl⟩
    | symbol x => exact ⟨x.isStamped, rfl, congrArg some Symbol.isStamped_rename⟩
    | pair ha hb hcar hcdr =>
      cases n with
      | zero => exact absurd rfl (hn.1 _)
      | succ n =>
        obtain ⟨items, tail, items', tail', hs, ht, hitems, htail⟩ :=
          (pair ha hb hcar hcdr).parts hn
        rw [Store.stampedWithin, Store.stampedWithin, hs, ht]
        exact hparts (by omega) (by omega) (List.rel_append hitems (.cons htail .nil))
    | vector ha hb hsize hvw =>
      cases n with
      | zero => exact absurd rfl (hn.2 _)
      | succ n =>
        have hitems := (vector ha hb hsize hvw).items
        rw [Store.stampedWithin, Store.stampedWithin]
        refine hparts (k := n) (by omega) (by omega) ?_
        exact ((List.forall₂_and_left _ _).mpr ⟨hn, hitems⟩).imp fun _ _ h => ⟨h.2, h.1⟩

theorem Renamed.isStamped? (h : Renamed π s t v w) : Agrees (s.isStamped? v) (t.isStamped? w) := by
  obtain ⟨n, hn, hs, ht⟩ := h.exists_within
  exact h.stampedWithin hn (by omega) (by omega)

namespace Renaming

theorem stampedSymbols_eq (h : List.Forall₂ (Renamed π s t) items items') :
    stampedSymbols items' = stampedSymbols items := by
  have heq : List.Forall₂ Eq (stampedSymbols items) (stampedSymbols items') := by
    refine List.rel_filterMap ?_ h
    intro v w hvw
    cases hvw with
    | symbol x =>
      dsimp only
      rw [Symbol.isStamped_rename]
      split
      · rename_i hx
        exact .some (Symbol.rename_of_stamped hx).symm
      · exact .none
    | constant h => cases v <;> first | exact .none | cases h
    | _ => exact .none
  rw [List.forall₂_eq_eq_eq] at heq
  exact heq.symm

theorem formals_eq (h : Renamed π s t v w) : formals t w = formals s v := by
  cases h with
  | symbol x => exact stampedSymbols_eq (s := s) (t := t) (.cons (.symbol x) .nil)
  | pair ha hb hcar hcdr =>
    obtain ⟨items, tail, items', tail', hs, ht, hitems, htail⟩ :=
      (Renamed.pair ha hb hcar hcdr).splitList
    rw [formals, formals, hs, ht]
    exact stampedSymbols_eq (List.rel_append hitems (.cons htail .nil))
  | constant h => cases v <;> first | rfl | cases h
  | _ => rfl

theorem Head.ofItems_eq (hcore : FixesCore π) (h : List.Forall₂ (Renamed π s t) items items') :
    ofItems items' = ofItems items := by
  cases h with
  | nil => rfl
  | @cons v w _ _ hvw _ =>
    cases hvw with
    | symbol x =>
      simp only [ofItems, Symbol.isStamped_rename,
        Symbol.name_rename_beq (hcore "quote" (by decide)),
        Symbol.name_rename_beq (hcore "quasiquote" (by decide)),
        Symbol.name_rename_beq (hcore "lambda" (by decide)),
        Symbol.name_rename_beq (hcore "define" (by decide)),
        Symbol.name_rename_beq (hcore "define-syntax" (by decide))]
    | constant => cases v <;> rfl
    | _ => rfl

theorem binders_agrees (hcore : FixesCore π) (h : Renamed π s t v w) (hn : s.Within n v)
    (hm : n < m) (hm' : n < m') : Agrees (binders s m v) (binders t m' w) := by
  induction m generalizing n m' v w with
  | zero => exact absurd hm (Nat.not_lt_zero n)
  | succ m ih =>
    obtain ⟨m', rfl⟩ : ∃ k, m' = k + 1 := ⟨m' - 1, by omega⟩
    cases h with
    | pair ha hb hcar hcdr =>
      cases n with
      | zero => exact absurd rfl (hn.1 _)
      | succ n =>
        obtain ⟨items, tail, items', tail', hs, ht, hitems, htail⟩ :=
          (Renamed.pair ha hb hcar hcdr).parts hn
        have hrenamed := hitems.imp fun _ _ h => h.1
        have hmapM : ∀ {vs ws}, List.Forall₂ (Below π n s t) vs ws →
            Agrees (vs.mapM (binders s m)) (ws.mapM (binders t m')) := fun h =>
          mapM_agrees (h.imp fun _ _ h => ih h.1 h.2 (by omega) (by omega))
        have htarget : ((items'.drop 1).head?.elim [] (formals t)) =
            (items.drop 1).head?.elim [] (formals s) := by
          have hdrop := List.forall₂_drop 1 hrenamed
          generalize items.drop 1 = vs, items'.drop 1 = ws at hdrop ⊢
          cases hdrop with
          | nil => rfl
          | cons h _ => exact formals_eq h
        simp only [binders, hs, ht, Head.ofItems_eq hcore hrenamed, htarget]
        obtain ⟨xs, hxs, hxs'⟩ := hmapM (List.forall₂_drop 2 hitems)
        obtain ⟨ys, hys, hys'⟩ := hmapM (List.rel_append hitems (.cons htail .nil))
        rw [hxs, hxs', hys, hys']
        cases Head.ofItems items <;> exact ⟨_, rfl, rfl⟩
    | constant h => cases v <;> first | exact ⟨[], rfl, rfl⟩ | cases h
    | _ => exact ⟨[], rfl, rfl⟩

theorem rebuild_same {f g : Value → Action Value} (hv : s.Spine v items tail)
    (hf : ∀ {s' t' v w}, Parallel s t s' t' → Below π n s' t' v w →
      Same (Settled π v) s' t' (f v s') (g w t'))
    (hitems : List.Forall₂ (Below π n s t) items items') (htail : Below π n s t tail tail') :
    Same (Settled π v) s t (rebuild f items tail s) (rebuild g items' tail' t) := by
  refine (Same.mapM_rows (Below.stable π n) (Settled.stable π) hitems hf).bind fun h hrows => ?_
  refine (hf h (Below.stable π n h.left h.right htail)).bind fun k hlast => ?_
  refine (Same.spines _ _ _ _ _ _).mono fun l hspines hlost => ?_
  have hgrown := k.trans l
  obtain ⟨hrenamed, hrest⟩ := Settled.forall₂
    (hrows.imp fun v _ _ => Settled.stable π v hgrown.left hgrown.right)
    (hv.grow (h.trans hgrown).left) hspines.1 hlost
  exact .of_spine hspines.1 hspines.2 hrenamed (Settled.stable π _ l.left l.right hlast hrest)

theorem rebuildVector_same {f g : Value → Action Value} {a : Address} (ha : a < s.vectors.size)
    (hf : ∀ {s' t' v w}, Parallel s t s' t' → Below π n s' t' v w →
      Same (Settled π v) s' t' (f v s') (g w t'))
    (hitems : List.Forall₂ (Below π n s t) (s.vectorAt a).toList items') :
    Same (Settled π (.vector a)) s t
      (((s.vectorAt a).toList.mapM f >>= fun vs => liftM (Build.vector vs.toArray) :
        Action Value) s)
      ((items'.mapM g >>= fun vs => liftM (Build.vector vs.toArray) : Action Value) t) := by
  refine (Same.mapM_rows (Below.stable π n) (Settled.stable π) hitems hf).bind
    fun {s' t' results results'} h hrows => ?_
  have hs := s'.grows_push_vector results.toArray
  have ht := t'.grows_push_vector results'.toArray
  refine .ok (.of_grows hs ht rfl rfl ⟨rfl, rfl⟩ ⟨rfl, rfl⟩) fun hlost => ?_
  have hgrown := h.left.trans hs
  have ha' := Nat.lt_of_lt_of_le ha hgrown.vectors_le
  refine .vector_of_forall₂ (by simp) (by simp) ?_
  have hrenamed := Settled.forall₂_of_zip (hrows.imp fun v _ _ => Settled.stable π v hs ht)
    fun v r hvr name hname => hlost name (.item ha' (by simp) (by
      rwa [hgrown.vectorAt_eq ha, Store.vectorAt_push_size]) hname)
  rwa [Store.vectorAt_push_size, Store.vectorAt_push_size]

theorem strip_same (h : Renamed π s t v w) (hn : s.Within n v) (hm : n < m) (hm' : n < m') :
    Same (Settled π v) s t (strip m v s) (strip m' w t) := by
  induction m generalizing n m' s t v w with
  | zero => exact absurd hm (Nat.not_lt_zero n)
  | succ m ih =>
    obtain ⟨m', rfl⟩ : ∃ k, m' = k + 1 := ⟨m' - 1, by omega⟩
    unfold strip
    rw [Action.get_bind, Action.get_bind]
    obtain ⟨b, hv, hw⟩ := h.isStamped?
    rw [hv, hw, Action.ended_some_bind, Action.ended_some_bind]
    cases b with
    | false => exact .pure fun _ => h
    | true =>
      cases h with
      | constant h => cases v <;> first | exact .pure fun _ => .constant rfl | cases h
      | string hxy => exact .pure fun _ => .string hxy
      | symbol x => exact .pure (.unstamped x)
      | pair ha hb hcar hcdr =>
        cases n with
        | zero => exact absurd rfl (hn.1 _)
        | succ n =>
          have h := Renamed.pair ha hb hcar hcdr
          obtain ⟨items, tail, items', tail', hs, ht, hitems, htail⟩ := h.parts hn
          simp only [if_true, hs, ht]
          refine rebuild_same (h.tree_left.spine (Store.splitList?_eq_some.mp hs)) ?_ hitems htail
          exact fun _ h => ih h.1 h.2 (by omega) (by omega)
      | vector ha hb hsize hvw =>
        cases n with
        | zero => exact absurd rfl (hn.2 _)
        | succ n =>
          have hitems := (Renamed.vector ha hb hsize hvw).items
          simp only [if_true]
          refine rebuildVector_same (n := n) ha ?_ ?_
          · exact fun _ h => ih h.1 h.2 (by omega) (by omega)
          · exact ((List.forall₂_and_left _ _).mpr ⟨hn, hitems⟩).imp fun _ _ h => ⟨h.2, h.1⟩

inductive Form.Alike (items items' : List Value) (tail tail' : Value) : Form → Form → Prop
  | quote {v w : Value} {data data' : List Value} (h : items = v :: data)
      (h' : items' = w :: data') : Alike items items' tail tail' (.quote data) (.quote data')
  | quasiquote {v w t t' : Value} (h : items = [v, t]) (h' : items' = [w, t'])
      (htail : tail = .null) (htail' : tail' = .null) :
      Alike items items' tail tail' (.quasiquote t) (.quasiquote t')
  | definition : Alike items items' tail tail' .definition .definition
  | other : Alike items items' tail tail' .other .other

theorem Form.alike (hcore : FixesCore π) (hitems : List.Forall₂ (Renamed π s t) items items')
    (htail : Renamed π s t tail tail') :
    Form.Alike items items' tail tail' (Form.of items tail) (Form.of items' tail') := by
  unfold Form.of
  rw [Head.ofItems_eq hcore hitems]
  cases hhead : Head.ofItems items with
  | quote =>
    cases hitems with
    | nil => cases hhead
    | cons => exact .quote rfl rfl
  | quasiquote =>
    rcases hitems with _ | ⟨_, _ | ⟨_, _ | _⟩⟩
    · exact .other
    · exact .other
    · cases htail with
      | constant h => cases tail <;> first | exact .other | exact .quasiquote rfl rfl rfl rfl
      | _ => exact .other
    · exact .other
  | defineSyntax => exact .definition
  | _ => exact .other

theorem cons_same {a : Address} {car car' cdr cdr' : Value} (ha : a < s.pairs.size)
    (hcar : Settled π (s.pairAt a).car s t car car')
    (hcdr : Settled π (s.pairAt a).cdr s t cdr cdr') :
    Same (Settled π (.pair a)) s t ((liftM (Build.cons car cdr) : Action Value) s)
      ((liftM (Build.cons car' cdr') : Action Value) t) := by
  have hs := s.grows_push_pair ⟨car, cdr⟩
  have ht := t.grows_push_pair ⟨car', cdr'⟩
  refine .ok (.of_grows hs ht rfl rfl ⟨rfl, rfl⟩ ⟨rfl, rfl⟩) fun hlost => ?_
  have ha' := Nat.lt_of_lt_of_le ha hs.pairs_le
  have hp := s.pairAt_push_size ⟨car, cdr⟩
  refine .pair (by simp) (by simp) ?_ ?_
  · rw [hp, Store.pairAt_push_size]
    refine Settled.stable π _ hs ht hcar fun name hname => hlost name (.car ha' (by simp) ?_)
    rwa [hp, hs.pairAt_eq ha]
  · rw [hp, Store.pairAt_push_size]
    refine Settled.stable π _ hs ht hcdr fun name hname => hlost name (.cdr ha' (by simp) ?_)
    rwa [hp, hs.pairAt_eq ha]

theorem list_same {keyword : String} (hkeyword : π keyword = keyword) {k x x' x'' : Value}
    (hv : s.Spine v [k, x] .null) (hx : Settled π x s t x' x'') :
    Same (Settled π v) s t ((liftM (Build.list [.name keyword, x']) : Action Value) s)
      ((liftM (Build.list [.name keyword, x'']) : Action Value) t) := by
  refine (Same.spines _ _ _ _ _ _).mono fun {s' t' r r'} h hspines hlost => ?_
  have hrows : Rows (fun v => Settled π v s' t') [k, x] [.name keyword, x'] [.name keyword, x''] :=
    .cons (.name hkeyword k) (.cons (Settled.stable π x h.left h.right hx) .nil)
  exact .of_spine hspines.1 hspines.2
    (Settled.forall₂ hrows (hv.grow h.left) hspines.1 hlost).1 (.constant rfl)

def SettlesAlike (π : Equiv.Perm String) (m : Nat) (settle : Nat → Value → Action Value) : Prop :=
  ∀ ⦃n m' : Nat⦄ ⦃s t : Store⦄ ⦃v w : Value⦄, Renamed π s t v w → s.Within n v → n + 1 < m →
    n + 1 < m' → Same (Settled π v) s t (settle m v s) (settle m' w t)

section

variable {bound : List Symbol} {level : Nat}

theorem code_symbol_same (x : Symbol) :
    Same (Settled π (.symbol x)) s t (code bound (m + 1) (.symbol x) s)
      (code bound (m' + 1) (.symbol (x.rename π)) t) := by
  rw [code, code, Symbol.isStamped_rename]
  by_cases hx : x.isStamped
  · rw [Symbol.rename_of_stamped hx]
    by_cases hbound : bound.contains x
    · have hsymbol : Renamed π s t (.symbol x) _ := .symbol x
      rw [Symbol.rename_of_stamped hx] at hsymbol
      simp only [hx, hbound, Bool.not_true, Bool.and_false, Bool.false_eq_true, if_false]
      exact .pure fun _ => hsymbol
    · have hsymbol : Settled π (.symbol x) s t (.symbol x.unstamped) _ := .unstamped x
      rw [Symbol.rename_of_stamped hx] at hsymbol
      simp only [hx, hbound, Bool.not_false, Bool.and_true, if_true]
      exact .pure hsymbol
  · simp only [hx, Bool.false_and, Bool.false_eq_true, if_false]
    exact .pure fun _ => .symbol x

theorem code_pair_same (hcore : FixesCore π) (hcode : SettlesAlike π m (code bound))
    (htemplate : SettlesAlike π m fun k => template bound k 1) {a b : Address}
    (h : Renamed π s t (.pair a) (.pair b)) (hn : s.Within (n + 1) (.pair a)) (hm : n + 1 < m)
    (hm' : n + 1 < m') :
    Same (Settled π (.pair a)) s t (code bound (m + 1) (.pair a) s)
      (code bound (m' + 1) (.pair b) t) := by
  obtain ⟨items, tail, items', tail', hs, ht, hitems, htail⟩ := h.parts hn
  have hspine := h.tree_left.spine (Store.splitList?_eq_some.mp hs)
  rw [code_pair hs, code_pair ht]
  -- The core names are fixed, so both lists are the same kind of form.
  have halike := Form.alike hcore (hitems.imp fun _ _ h => h.1) htail.1
  generalize Form.of items tail = form, Form.of items' tail' = form' at halike ⊢
  cases halike with
  | @quote _ _ data data' hv hw =>
    subst hv hw
    rcases hitems with _ | ⟨_, hdata⟩
    cases hspine with
    | cons ha hcdr =>
      refine (rebuild_same hcdr ?_ hdata htail).bind fun k hd => ?_
      · exact fun _ h => strip_same h.1 h.2 (by omega) (by omega)
      · rw [← k.left.pairAt_eq ha] at hd
        exact cons_same (Nat.lt_of_lt_of_le ha k.left.pairs_le)
          (.name (hcore "quote" (by decide)) _) hd
  | quasiquote hv hw hnull hnull' =>
    subst hv hw hnull hnull'
    rcases hitems with _ | ⟨_, _ | ⟨hoperand, _⟩⟩
    refine (htemplate hoperand.1 hoperand.2 hm hm').bind fun k hd => ?_
    exact list_same (hcore "quasiquote" (by decide)) (hspine.grow k.left) hd
  | definition => exact .pure fun _ => h
  | other => exact rebuild_same hspine (fun _ h => hcode h.1 h.2 hm hm') hitems htail

theorem code_same (hcore : FixesCore π) (hcode : SettlesAlike π m (code bound))
    (htemplate : SettlesAlike π m fun k => template bound k 1) :
    SettlesAlike π (m + 1) (code bound) := by
  intro n m' s t v w h hn hm hm'
  obtain ⟨m', rfl⟩ : ∃ k, m' = k + 1 := ⟨m' - 1, by omega⟩
  cases h with
  | constant h => cases v <;> first | exact .pure fun _ => .constant rfl | cases h
  | string hxy => exact .pure fun _ => .string hxy
  | symbol x => exact code_symbol_same x
  | pair ha hb hcar hcdr =>
    cases n with
    | zero => exact absurd rfl (hn.1 _)
    | succ n =>
      exact code_pair_same hcore hcode htemplate (.pair ha hb hcar hcdr) hn (by omega) (by omega)
  | vector ha hb hsize hvw =>
    rw [code, code]
    exact strip_same (.vector ha hb hsize hvw) hn (by omega) (by omega)

theorem template_form_same (hcore : FixesCore π) (hcode : SettlesAlike π m (code bound))
    (htemplate : ∀ level, SettlesAlike π m fun k => template bound k level)
    {keyword : QuasiKeyword} {operand operand' : Value}
    (hs : s.quasiForm? v = some (keyword, operand))
    (ht : t.quasiForm? w = some (keyword, operand')) (hoperand : Renamed π s t operand operand')
    (h : Renamed π s t v w) (hn : s.Within n v) (hm : n < m) (hm' : n < m') :
    Same (Settled π v) s t (template bound (m + 1) level v s)
      (template bound (m' + 1) level w t) := by
  obtain ⟨a, head, rfl, -, hchain⟩ := Store.quasiForm?_chain hs
  have hspine := h.tree_left.spine hchain
  cases n with
  | zero => exact absurd rfl (hn.1 _)
  | succ n =>
    -- The operand lies one pair deeper, in whichever of the two roles it is read.
    have hbelow := (hn.parts hchain).1 operand (by simp)
    rw [template_form hs, template_form ht]
    refine Same.bind (R := Settled π operand) ?_ fun k hx =>
      list_same (QuasiKeyword.fixed hcore) (hspine.grow k.left) hx
    split_ifs
    · exact htemplate _ hoperand hbelow hm hm'
    · exact hcode hoperand hbelow hm hm'
    · exact htemplate _ hoperand hbelow hm hm'

theorem template_parts_same (htemplate : SettlesAlike π m fun k => template bound k level)
    (hs : s.quasiForm? v = none) (ht : t.quasiForm? w = none) (h : Renamed π s t v w)
    (hn : s.Within n v) (hm : n < m) (hm' : n < m') :
    Same (Settled π v) s t (template bound (m + 1) level v s)
      (template bound (m' + 1) level w t) := by
  cases h with
  | pair ha hb hcar hcdr =>
    cases n with
    | zero => exact absurd rfl (hn.1 _)
    | succ n =>
      rw [template_pair hs, template_pair ht]
      have hcdrn := hn.2
      refine (htemplate hcar hn.1 hm hm').bind fun k hc => ?_
      refine (htemplate (hcdr.grow k.left k.right) (hcdrn.grow hcdr.tree_left k.left) hm
        hm').bind fun k' hd => ?_
      -- The second part was walked later, where what was made of the first still stands.
      have hgrown := k.left.trans k'.left
      rw [← hgrown.pairAt_eq ha] at hc hd
      exact cons_same (Nat.lt_of_lt_of_le ha hgrown.pairs_le)
        (Settled.stable π _ k'.left k'.right hc) hd
  | vector ha hb hsize hvw =>
    cases n with
    | zero => exact absurd rfl (hn.2 _)
    | succ n =>
      have hitems := (Renamed.vector ha hb hsize hvw).items
      rw [template_vector, template_vector]
      refine rebuildVector_same (n := n) ha (fun _ h => htemplate h.1 h.2 hm hm') ?_
      exact ((List.forall₂_and_left _ _).mpr ⟨hn, hitems⟩).imp fun _ _ h => ⟨h.2, h.1⟩
  | constant hv =>
    have hleaf : (∀ a, v ≠ .pair a) ∧ ∀ a, v ≠ .vector a := by
      constructor <;> rintro a rfl <;> cases hv
    rw [template_leaf hleaf.1 hleaf.2, template_leaf hleaf.1 hleaf.2]
    exact strip_same (.constant hv) hn hm hm'
  | string hxy =>
    rw [template_leaf (by simp) (by simp), template_leaf (by simp) (by simp)]
    exact strip_same (.string hxy) hn hm hm'
  | symbol x =>
    rw [template_leaf (by simp) (by simp), template_leaf (by simp) (by simp)]
    exact strip_same (.symbol x) hn hm hm'

theorem template_same (hcore : FixesCore π) (hcode : SettlesAlike π m (code bound))
    (htemplate : ∀ level, SettlesAlike π m fun k => template bound k level) :
    SettlesAlike π (m + 1) fun k => template bound k level := by
  intro n m' s t v w h hn hm hm'
  obtain ⟨m', rfl⟩ : ∃ k, m' = k + 1 := ⟨m' - 1, by omega⟩
  rcases h.quasiForm_cases hcore with ⟨keyword, operand, operand', hs, ht, hoperand⟩ | ⟨hs, ht⟩
  · exact template_form_same hcore hcode htemplate hs ht hoperand h hn (by omega) (by omega)
  · exact template_parts_same (htemplate level) hs ht h hn (by omega) (by omega)

/-- Code and templates call each other, so both are settled by one induction on the bound of the
first run; that of the second only has to be large enough. -/
theorem code_template_same (hcore : FixesCore π) (bound : List Symbol) (m : Nat) :
    SettlesAlike π m (code bound) ∧ ∀ level, SettlesAlike π m fun k => template bound k level := by
  induction m with
  | zero => exact ⟨fun _ _ _ _ _ _ _ _ hm => absurd hm (Nat.not_lt_zero _),
      fun _ _ _ _ _ _ _ _ _ hm => absurd hm (Nat.not_lt_zero _)⟩
  | succ m ih =>
    obtain ⟨hcode, htemplate⟩ := ih
    exact ⟨code_same hcore hcode (htemplate 1), fun _ => template_same hcore hcode htemplate⟩

end

theorem renameIntroduced_same (hcore : FixesCore π) (h : Renamed π s t v w) :
    Same (Settled π v) s t (renameIntroduced v s) (renameIntroduced w t) := by
  obtain ⟨b, hv, hw⟩ := h.isStamped?
  obtain ⟨n, hn, hs, ht⟩ := h.exists_within
  unfold renameIntroduced
  rw [Action.get_bind, Action.get_bind, hv, hw, Action.ended_some_bind, Action.ended_some_bind]
  cases b with
  | false => exact .pure fun _ => h
  | true =>
    obtain ⟨bound, hbound, hbound'⟩ :=
      binders_agrees hcore h hn (Nat.lt_of_succ_lt hs) (Nat.lt_of_succ_lt ht)
    simp only [if_true]
    rw [hbound, hbound', Action.ended_some_bind, Action.ended_some_bind]
    exact (code_template_same hcore bound _).1 h hn hs ht

end Renaming

end HygienicScheme
