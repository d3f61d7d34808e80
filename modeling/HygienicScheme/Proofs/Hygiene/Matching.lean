import HygienicScheme.Expansion
import HygienicScheme.Proofs.Hygiene.Renamed

/-!
# Matching a renamed form

A pattern whose literals have fixed names matches a form and its renaming alike, and binds its
variables to values that are related in the same way.
-/
namespace HygienicScheme

variable {π : Equiv.Perm String} {s t s' t' : Store}

inductive RenamedBinding (π : Equiv.Perm String) (s t : Store) : Binding → Binding → Prop
  | one {v w : Value} (h : Renamed π s t v w) : RenamedBinding π s t (.one v) (.one w)
  | many {bs cs : List Binding} (hlength : bs.length = cs.length)
      (h : ∀ b c, (b, c) ∈ bs.zip cs → RenamedBinding π s t b c) :
      RenamedBinding π s t (.many bs) (.many cs)

namespace RenamedBinding

theorem grow {b c : Binding} (h : RenamedBinding π s t b c) (hs : s.Grows s') (ht : t.Grows t') :
    RenamedBinding π s' t' b c := by
  induction h with
  | one h => exact one (h.grow hs ht)
  | many hlength _ ih => exact many hlength ih

theorem many_of_forall₂ {bs cs : List Binding} (h : List.Forall₂ (RenamedBinding π s t) bs cs) :
    RenamedBinding π s t (.many bs) (.many cs) :=
  many h.length_eq fun _ _ hbc => (List.forall₂_iff_zip.mp h).2 hbc

theorem sequence {bs cs : List Binding} (h : RenamedBinding π s t (.many bs) (.many cs)) :
    List.Forall₂ (RenamedBinding π s t) bs cs := by
  cases h with
  | many hlength h => exact List.forall₂_iff_zip.mpr ⟨hlength, h _ _⟩

end RenamedBinding

def RenamedBindings (π : Equiv.Perm String) (s t : Store) : Bindings → Bindings → Prop :=
  List.Forall₂ fun b c => c.1 = b.1 ∧ RenamedBinding π s t b.2 c.2

namespace RenamedBindings

theorem grow {bs cs : Bindings} (h : RenamedBindings π s t bs cs) (hs : s.Grows s')
    (ht : t.Grows t') : RenamedBindings π s' t' bs cs :=
  h.imp fun _ _ hbc => ⟨hbc.1, hbc.2.grow hs ht⟩

theorem append {bs cs bs' cs' : Bindings} (h : RenamedBindings π s t bs cs)
    (h' : RenamedBindings π s t bs' cs') : RenamedBindings π s t (bs ++ bs') (cs ++ cs') :=
  List.rel_append h h'

theorem lookup {bs cs : Bindings} (h : RenamedBindings π s t bs cs) (x : Symbol) :
    Option.Rel (RenamedBinding π s t) (bs.lookup x) (cs.lookup x) := by
  induction h with
  | nil => exact .none
  | @cons b c bs cs hbc _ ih =>
    obtain ⟨y, b⟩ := b
    obtain ⟨z, c⟩ := c
    obtain ⟨rfl, hbc⟩ := hbc
    rw [List.lookup_cons, List.lookup_cons]
    cases x == z with
    | true => exact .some hbc
    | false => exact ih

end RenamedBindings

inductive Alike {ε α β : Type} (R : α → β → Prop) : Except ε α → Except ε β → Prop
  | ok {a : α} {b : β} (h : R a b) : Alike R (.ok a) (.ok b)
  | error {e e' : ε} : Alike R (.error e) (.error e')

theorem Alike.bind {ε α β α' β' : Type} {R : α → β → Prop} {R' : α' → β' → Prop}
    {x : Except ε α} {y : Except ε β} {f : α → Except ε α'} {g : β → Except ε β'}
    (h : Alike R x y) (hfg : ∀ {a b}, R a b → Alike R' (f a) (g b)) :
    Alike R' (x >>= f) (y >>= g) := by
  cases h with
  | ok h => exact hfg h
  | error => exact error

theorem Renamed.equal?_eq {c v w : Value} (hc : c.isConstant) (h : Renamed π s t v w) :
    t.equal? c w = s.equal? c v := by
  obtain ⟨m, hm⟩ := s.exists_walkBound
  obtain ⟨n, hn⟩ := t.exists_walkBound
  rw [Store.equal?, Store.equal?, hm, hn]
  cases h with
  | constant hv => cases c <;> cases v <;> first | rfl | cases hc
  | string hxy => cases c <;> first | rfl | simp [Store.equalWithin, hxy]
  | _ => cases c <;> first | rfl | cases hc

namespace SyntaxRules

theorem matchEach_alike {f g : Value → Except Mismatch Bindings}
    (hfg : ∀ {v w}, Renamed π s t v w → Alike (RenamedBindings π s t) (f v) (g w))
    {vs ws : List Value} (h : List.Forall₂ (Renamed π s t) vs ws) :
    Alike (List.Forall₂ (RenamedBindings π s t)) (matchEach f vs) (matchEach g ws) := by
  induction h with
  | nil => exact .ok .nil
  | cons hvw _ ih => exact (hfg hvw).bind fun hb => ih.bind fun hbs => .ok (.cons hb hbs)

theorem renamedBindings_gather (vars : List Symbol) {rows rows' : List Bindings}
    (h : List.Forall₂ (RenamedBindings π s t) rows rows') :
    RenamedBindings π s t (gather vars rows) (gather vars rows') := by
  unfold gather
  rw [RenamedBindings, List.forall₂_map_left_iff, List.forall₂_map_right_iff, List.forall₂_same]
  refine fun x _ => ⟨rfl, .many_of_forall₂ ?_⟩
  refine List.rel_filterMap (R := RenamedBindings π s t) ?_ h
  intro bs cs hbc
  exact hbc.lookup x

structure RenamedSubject (π : Equiv.Perm String) (s t : Store) (a b : Subject) : Prop where
  count : b.count = a.count
  tail : Renamed π s t a.tail b.tail
  whole : Renamed π s t a.whole b.whole

mutual

theorem matchPattern_alike {p : Pattern} (hp : p.Fits fun k => π k = k) {v w : Value}
    (h : Renamed π s t v w) :
    Alike (RenamedBindings π s t) (matchPattern s p v) (matchPattern t p w) := by
  match p with
  | .wildcard =>
    simp only [matchPattern]
    exact .ok .nil
  | .variable x =>
    simp only [matchPattern]
    exact .ok (.cons ⟨rfl, .one h⟩ .nil)
  | .literal x =>
    simp only [matchPattern, h.isNamed_eq hp]
    split
    · exact .ok .nil
    · exact .error
  | .constant c =>
    simp only [matchPattern, h.equal?_eq hp]
    split
    · exact .ok .nil
    · exact .error
  | .list ps =>
    -- A chain goes in a circle on both sides or on neither.
    have hlist : Alike (RenamedBindings π s t)
        (match s.splitList? v with
          | none => .error .circular
          | some (vs, tail) => matchItems s ps ⟨vs.length, tail, v⟩ 0 vs)
        (match t.splitList? w with
          | none => .error .circular
          | some (ws, tail) => matchItems t ps ⟨ws.length, tail, w⟩ 0 ws) := by
      obtain ⟨vs, tail, ws, tail', hv, hw, hitems, htail⟩ := h.splitList
      rw [hv, hw]
      exact matchItems_alike hp ⟨hitems.length_eq.symm, htail, h⟩ 0 hitems
    cases h with
    | pair =>
      simp only [matchPattern]
      exact hlist
    | constant hv =>
      cases v with
      | null =>
        simp only [matchPattern]
        exact hlist
      | pair => cases hv
      | _ =>
        simp only [matchPattern]
        exact .error
    | _ =>
      simp only [matchPattern]
      exact .error
  | .vector ps =>
    cases h with
    | @vector a b ha hb hsize hitems =>
      have h : Renamed π s t (.vector a) (.vector b) := .vector ha hb hsize hitems
      have hsubject : RenamedSubject π s t ⟨(s.vectorAt a).toList.length, .null, .vector a⟩
          ⟨(t.vectorAt b).toList.length, .null, .vector b⟩ :=
        ⟨hsize.symm, .constant rfl, h⟩
      simp only [matchPattern]
      exact matchItems_alike hp hsubject 0 h.items
    | constant hv =>
      cases v with
      | vector => cases hv
      | _ =>
        simp only [matchPattern]
        exact .error
    | _ =>
      simp only [matchPattern]
      exact .error

theorem matchItems_alike {ps : PatternSeq} (hps : ps.Fits fun k => π k = k) {a b : Subject}
    (hab : RenamedSubject π s t a b) (done : Nat) {vs ws : List Value}
    (h : List.Forall₂ (Renamed π s t) vs ws) :
    Alike (RenamedBindings π s t) (matchItems s ps a done vs) (matchItems t ps b done ws) := by
  match ps with
  | .done =>
    simp only [matchItems, hab.count, hab.tail.isNull_eq]
    split
    · exact .ok .nil
    · exact .error
  | .rest p =>
    simp only [matchItems]
    exact matchPattern_alike hps (hab.whole.dropPairs done)
  | .item p more =>
    simp only [matchItems, hab.count]
    split
    · exact .error
    · cases h with
      | nil => exact .error
      | cons hvw h =>
        exact (matchPattern_alike hps.1 hvw).bind fun hb =>
          (matchItems_alike hps.2 hab (done + 1) h).bind fun hbs => .ok (hb.append hbs)
  | .repeated p after =>
    simp only [matchItems, hab.count, hab.tail.isNull_eq]
    split
    · exact .error
    · split
      · exact .error
      · exact (matchEach_alike (matchPattern_alike hps.1) (List.forall₂_take _ h)).bind fun hb =>
          (matchItems_alike hps.2 hab _ (List.forall₂_drop _ h)).bind fun hbs =>
            .ok ((renamedBindings_gather p.vars hb).append hbs)

end

end SyntaxRules

theorem Expansion.firstMatch?_alike {rules : List Rule}
    (hrules : ∀ r ∈ rules, r.pattern.Fits fun k => π k = k) {v w : Value}
    (h : Renamed π s t v w) :
    Option.Rel (fun a b => b.1 = a.1 ∧ RenamedBindings π s t a.2 b.2) (firstMatch? s v rules)
      (firstMatch? t w rules) := by
  induction rules with
  | nil => exact .none
  | cons r more ih =>
    have hr := SyntaxRules.matchPattern_alike (hrules r List.mem_cons_self) h
    have hmore := ih fun r hr => hrules r (List.mem_cons_of_mem _ hr)
    unfold firstMatch? Rule.bindings
    generalize SyntaxRules.matchPattern s r.pattern v = x,
      SyntaxRules.matchPattern t r.pattern w = y at hr ⊢
    cases hr with
    | ok hbs => exact .some ⟨rfl, hbs⟩
    | error => exact hmore

end HygienicScheme
