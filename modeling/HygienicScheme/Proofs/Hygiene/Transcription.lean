import HygienicScheme.Proofs.Hygiene.Agreement
import HygienicScheme.Proofs.Hygiene.Matching

/-!
# Filling in a template on both sides

Two uses of one transformer, stamped alike, fill in its templates alike. What a template brings
itself is either stamped or a name that the renaming fixes, so it is the same identifier on both
sides.
-/
namespace HygienicScheme

variable {π : Equiv.Perm String} {env : Environment} {s t s' t' : Store}

structure SameMacros (π : Equiv.Perm String) (env : Environment) (s t : Store) : Prop where
  stamps : s.phase = t.phase ∧ s.uses = t.uses
  root : env.root.frame < s.frames.size
  transformer?_eq : ∀ name, t.transformer? name env.chain = s.transformer? name env.chain
  fixed : ∀ {name m}, s.transformer? name env.chain = some m →
    π name = name ∧ m.Fits fun k => π k = k

namespace SameMacros

theorem along (h : SameMacros π env s t) (k : Parallel s t s' t') : SameMacros π env s' t' where
  stamps := k.stamps h.stamps
  root := by
    rw [k.frames_left]
    exact h.root
  transformer?_eq name := by
    rw [Store.transformer?_congr k.frames_left, Store.transformer?_congr k.frames_right]
    exact h.transformer?_eq name
  fixed hm := by
    rw [Store.transformer?_congr k.frames_left] at hm
    exact h.fixed hm

theorem transformer?_rename (h : SameMacros π env s t) (name : String) :
    t.transformer? (π name) env.chain = s.transformer? name env.chain := by
  rw [h.transformer?_eq]
  cases hm : s.transformer? name env.chain with
  | some m => rw [(h.fixed hm).1, hm]
  | none =>
    cases hm' : s.transformer? (π name) env.chain with
    | none => rfl
    | some m =>
      rw [π.injective (h.fixed hm').1, hm] at hm'
      cases hm'

end SameMacros

namespace MacroUse

variable {u : MacroUse}

theorem introduce_eq (h : SameMacros π u.env s t) (x : Symbol) :
    u.introduce t x = u.introduce s x := by
  rw [introduce, introduce, Store.isKeyword, Store.isKeyword, h.transformer?_eq]

theorem rename_introduce (hcore : FixesCore π) (h : SameMacros π u.env s t)
    (hu : u.phase ≠ Symbol.userPhase) (hliterals : ∀ y ∈ u.transformer.literals, π y.name = y.name)
    (x : Symbol) : (u.introduce s x).rename π = u.introduce s x := by
  unfold introduce
  split
  · rename_i hx
    apply Symbol.rename_user
    rcases Bool.or_eq_true_iff.mp hx with hx | hx
    · obtain ⟨y, hy, hyx⟩ := List.any_eq_true.mp hx
      rw [← beq_iff_eq.mp hyx]
      exact hliterals y hy
    · rcases Bool.or_eq_true_iff.mp hx with hx | hx
      · exact hcore x.name (List.contains_iff_mem.mp hx)
      · obtain ⟨m, hm⟩ := Option.isSome_iff_exists.mp hx
        exact (h.fixed hm).1
  · exact Symbol.rename_of_stamped (by simpa [Symbol.isStamped, Symbol.stamp] using hu)

def RenamedDrivers (π : Equiv.Perm String) (s t : Store) :
    List (Symbol × List Binding) → List (Symbol × List Binding) → Prop :=
  List.Forall₂ fun b c => c.1 = b.1 ∧ List.Forall₂ (RenamedBinding π s t) b.2 c.2

theorem renamedDrivers (vars : List Symbol) {bs cs : Bindings} (h : RenamedBindings π s t bs cs) :
    RenamedDrivers π s t (drivers vars bs) (drivers vars cs) := by
  refine List.rel_filterMap (R := Eq) ?_ (List.forall₂_same.mpr fun _ _ => rfl)
  rintro x _ rfl
  have hx := h.lookup x
  dsimp only
  generalize bs.lookup x = b, cs.lookup x = c at hx ⊢
  cases hx with
  | none => exact .none
  | some hx =>
    cases hx with
    | one => exact .none
    | many hlength h => exact .some ⟨rfl, (RenamedBinding.many hlength h).sequence⟩

theorem renamedBindings_rounds (n : Nat) {bs cs : List (Symbol × List Binding)}
    (h : RenamedDrivers π s t bs cs) :
    List.Forall₂ (RenamedBindings π s t) (rounds n bs) (rounds n cs) := by
  induction n generalizing bs cs with
  | zero => exact .nil
  | succ n ih =>
    refine .cons (List.rel_filterMap ?_ h) (ih (List.rel_map ?_ h))
    · rintro ⟨x, bs⟩ ⟨y, cs⟩ ⟨rfl, h⟩
      cases h with
      | nil => exact .none
      | cons hb _ => exact .some ⟨rfl, hb⟩
    · rintro ⟨x, bs⟩ ⟨y, cs⟩ ⟨rfl, h⟩
      cases h with
      | nil => exact ⟨rfl, .nil⟩
      | cons _ hmore => exact ⟨rfl, hmore⟩

theorem RenamedDrivers.find? {bs cs : List (Symbol × List Binding)}
    (h : RenamedDrivers π s t bs cs) (n : Nat) :
    (cs.find? (·.2.length != n)).isSome = (bs.find? (·.2.length != n)).isSome := by
  induction h with
  | nil => rfl
  | cons hbc _ ih =>
    rw [List.find?_cons, List.find?_cons, hbc.2.length_eq]
    split
    · rfl
    · exact ih

theorem repeated_same {vars : List Symbol} {emit emit' : Bindings → Action Value}
    (hemit : ∀ {s' t' bs cs}, Parallel s t s' t' → RenamedBindings π s' t' bs cs →
      Same (Renamed π) s' t' (emit bs s') (emit' cs t'))
    (ellipses : Nat) {bs cs : Bindings} (h : RenamedBindings π s t bs cs) :
    Same (Relation.Each (Renamed π)) s t (u.repeated vars emit ellipses bs s)
      (u.repeated vars emit' ellipses cs t) := by
  induction ellipses generalizing s t bs cs with
  | zero => exact (hemit (.refl s t) h).bind fun _ hv => .pure (.cons hv .nil)
  | succ ellipses ih =>
    unfold repeated
    have hdrivers := renamedDrivers vars h
    generalize drivers vars bs = ds, drivers vars cs = ds' at hdrivers ⊢
    cases hdrivers with
    | nil => exact .error
    | @cons d d' more more' hd hmore =>
      have hall : RenamedDrivers π s t (d :: more) (d' :: more') := .cons hd hmore
      obtain ⟨first, sequence⟩ := d
      obtain ⟨first', sequence'⟩ := d'
      have hlength : sequence.length = sequence'.length := hd.2.length_eq
      -- Related sequences are of one length, so a driver of another length is found on both sides
      -- or on none.
      have hfind := RenamedDrivers.find? hmore sequence.length
      dsimp only
      rw [← hlength]
      generalize more.find? (·.2.length != sequence.length) = found,
        more'.find? (·.2.length != sequence.length) = found' at hfind ⊢
      cases found with
      | some _ =>
        cases found' with
        | some _ => exact .error
        | none => cases hfind
      | none =>
        cases found' with
        | some _ => cases hfind
        | none =>
          have hrows := renamedBindings_rounds sequence.length hall
          refine (Same.mapM (R := RenamedBindings π) ?_ (Renamed.stable π).each hrows ?_).bind ?_
          · exact fun _ _ _ _ _ _ hs ht h => h.grow hs ht
          · intro s' t' row row' hgrown hrow
            exact ih (fun k => hemit (hgrown.trans k))
              (hrow.append (h.grow hgrown.left hgrown.right))
          · intro s' t' vss wss _ hvs
            exact .pure (List.rel_flatten hvs)

def RenamedParts (π : Equiv.Perm String) : Relation (List Value × Value) (List Value × Value) :=
  fun s t p q => List.Forall₂ (Renamed π s t) p.1 q.1 ∧ Renamed π s t p.2 q.2

mutual

theorem transcribe_same (hcore : FixesCore π) (hu : u.phase ≠ Symbol.userPhase)
    (hliterals : ∀ y ∈ u.transformer.literals, π y.name = y.name) {template : Template}
    (htemplate : template.Atomic) {bs cs : Bindings} {s t : Store}
    (hmacros : SameMacros π u.env s t) (h : RenamedBindings π s t bs cs) :
    Same (Renamed π) s t (u.transcribe template bs s) (u.transcribe template cs t) := by
  match template with
  | .variable x =>
    unfold transcribe
    have hx := h.lookup x
    generalize bs.lookup x = b, cs.lookup x = c at hx ⊢
    cases hx with
    | none => exact .error
    | some hx =>
      cases hx with
      | one hv => exact .pure hv
      | many => exact .error
  | .free x =>
    have hx : Renamed π s t (.symbol (u.introduce s x)) (.symbol (u.introduce t x)) := by
      have hsymbol : Renamed π s t (.symbol (u.introduce s x)) _ := .symbol (u.introduce s x)
      rw [rename_introduce hcore hmacros hu hliterals x] at hsymbol
      rwa [introduce_eq hmacros]
    unfold transcribe
    exact .ok (.refl s t) hx
  | .constant v =>
    unfold transcribe
    exact .pure (.constant htemplate)
  | .list items =>
    unfold transcribe
    exact (transcribeItems_same hcore hu hliterals htemplate hmacros h).bind fun _ hparts =>
      .listWithTail hparts.1 hparts.2
  | .vector items =>
    unfold transcribe
    exact (transcribeItems_same hcore hu hliterals htemplate hmacros h).bind fun _ hparts =>
      .vector hparts.1

theorem transcribeItems_same (hcore : FixesCore π) (hu : u.phase ≠ Symbol.userPhase)
    (hliterals : ∀ y ∈ u.transformer.literals, π y.name = y.name) {items : TemplateSeq}
    (hitems : items.Atomic) {bs cs : Bindings} {s t : Store}
    (hmacros : SameMacros π u.env s t) (h : RenamedBindings π s t bs cs) :
    Same (RenamedParts π) s t (u.transcribeItems items bs s) (u.transcribeItems items cs t) := by
  match items with
  | .done =>
    unfold transcribeItems
    exact .pure ⟨.nil, .constant rfl⟩
  | .tail template =>
    unfold transcribeItems
    exact (transcribe_same hcore hu hliterals hitems hmacros h).bind fun _ hv => .pure ⟨.nil, hv⟩
  | .item template ellipses more =>
    unfold transcribeItems
    refine Same.bind (repeated_same (fun k hbs =>
      transcribe_same hcore hu hliterals hitems.1 (hmacros.along k) hbs) ellipses h)
      fun k hvs => ?_
    refine (transcribeItems_same hcore hu hliterals hitems.2 (hmacros.along k)
      (h.grow k.left k.right)).bind fun k' hparts => ?_
    exact .pure ⟨List.rel_append ((Renamed.stable π).each k'.left k'.right hvs) hparts.1, hparts.2⟩

end

end MacroUse

end HygienicScheme
