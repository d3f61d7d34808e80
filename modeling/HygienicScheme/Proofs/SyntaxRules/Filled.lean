import HygienicScheme.Proofs.Expansion.Equations
import HygienicScheme.Proofs.Store.Spines

/-!
# What a filled template holds

Where a template has a pattern variable its instance has the very value that the variable is bound
to, and where it brings an identifier itself the instance has this identifier as the use introduces
it. Under an ellipsis this holds of every round, with the bindings of that round in front.
-/
namespace HygienicScheme

namespace MacroUse

mutual

/-- The value is an instance of the template in the second store; the use was in the first. -/
inductive Filled (u : MacroUse) (s t : Store) : Template → Bindings → Value → Prop
  | variable {x : Symbol} {bs : Bindings} {v : Value} (h : bs.lookup x = some (.one v)) :
      Filled u s t (.variable x) bs v
  | free {x : Symbol} {bs : Bindings} : Filled u s t (.free x) bs (.symbol (u.introduce s x))
  | constant {v : Value} {bs : Bindings} : Filled u s t (.constant v) bs v
  | list {items : TemplateSeq} {bs : Bindings} {vs : List Value} {tail v : Value}
      (h : FilledItems u s t items bs vs tail) (hv : t.Spine v vs tail) :
      Filled u s t (.list items) bs v
  | vector {items : TemplateSeq} {bs : Bindings} {vs : List Value} {tail : Value} {a : Address}
      (h : FilledItems u s t items bs vs tail) (ha : a < t.vectors.size)
      (hv : t.vectorAt a = vs.toArray) : Filled u s t (.vector items) bs (.vector a)

inductive FilledItems (u : MacroUse) (s t : Store) :
    TemplateSeq → Bindings → List Value → Value → Prop
  | done {bs : Bindings} : FilledItems u s t .done bs [] .null
  | tail {p : Template} {bs : Bindings} {v : Value} (h : Filled u s t p bs v) :
      FilledItems u s t (.tail p) bs [] v
  | item {p : Template} {ellipses : Nat} {more : TemplateSeq} {bs : Bindings} {vs ws : List Value}
      {tail : Value} (h : FilledTimes u s t p ellipses bs vs)
      (hmore : FilledItems u s t more bs ws tail) :
      FilledItems u s t (.item p ellipses more) bs (vs ++ ws) tail

inductive FilledTimes (u : MacroUse) (s t : Store) :
    Template → Nat → Bindings → List Value → Prop
  | once {p : Template} {bs : Bindings} {v : Value} (h : Filled u s t p bs v) :
      FilledTimes u s t p 0 bs [v]
  | rounds {p : Template} {ellipses n : Nat} {bs : Bindings} {vs : List Value}
      (hlength : ∀ d ∈ drivers p.vars bs, d.2.length = n)
      (h : FilledRounds u s t p ellipses bs (rounds n (drivers p.vars bs)) vs) :
      FilledTimes u s t p (ellipses + 1) bs vs

inductive FilledRounds (u : MacroUse) (s t : Store) :
    Template → Nat → Bindings → List Bindings → List Value → Prop
  | none {p : Template} {ellipses : Nat} {bs : Bindings} : FilledRounds u s t p ellipses bs [] []
  | more {p : Template} {ellipses : Nat} {bs row : Bindings} {rows : List Bindings}
      {vs ws : List Value} (h : FilledTimes u s t p ellipses (row ++ bs) vs)
      (hmore : FilledRounds u s t p ellipses bs rows ws) :
      FilledRounds u s t p ellipses bs (row :: rows) (vs ++ ws)

end

variable {u : MacroUse} {s t t' : Store}

mutual

theorem Filled.grow : ∀ {p : Template} {bs : Bindings} {v : Value}, Filled u s t p bs v →
    t.Grows t' → Filled u s t' p bs v
  | _, _, _, .variable h, _ => .variable h
  | _, _, _, .free, _ => .free
  | _, _, _, .constant, _ => .constant
  | _, _, _, .list h hv, hg => .list (h.grow hg) (hv.grow hg)
  | _, _, _, .vector h ha hv, hg =>
    .vector (h.grow hg) (Nat.lt_of_lt_of_le ha hg.vectors_le) ((hg.vectorAt_eq ha).trans hv)

theorem FilledItems.grow : ∀ {ps : TemplateSeq} {bs : Bindings} {vs : List Value} {tail : Value},
    FilledItems u s t ps bs vs tail → t.Grows t' → FilledItems u s t' ps bs vs tail
  | _, _, _, _, .done, _ => .done
  | _, _, _, _, .tail h, hg => .tail (h.grow hg)
  | _, _, _, _, .item h hmore, hg => .item (h.grow hg) (hmore.grow hg)

theorem FilledTimes.grow : ∀ {p : Template} {ellipses : Nat} {bs : Bindings} {vs : List Value},
    FilledTimes u s t p ellipses bs vs → t.Grows t' → FilledTimes u s t' p ellipses bs vs
  | _, _, _, _, .once h, hg => .once (h.grow hg)
  | _, _, _, _, .rounds hlength h, hg => .rounds hlength (h.grow hg)

theorem FilledRounds.grow : ∀ {p : Template} {ellipses : Nat} {bs : Bindings}
    {rows : List Bindings} {vs : List Value}, FilledRounds u s t p ellipses bs rows vs →
    t.Grows t' → FilledRounds u s t' p ellipses bs rows vs
  | _, _, _, _, _, .none, _ => .none
  | _, _, _, _, _, .more h hmore, hg => .more (h.grow hg) (hmore.grow hg)

end

def Fills {α : Type} (s : Store) (x : Action α) (Q : Store → α → Prop) : Prop :=
  ∀ (t t' : Store) (a : α), t.frames = s.frames → x t = .ok a t' →
    t'.frames = s.frames ∧ t.Grows t' ∧ Q t' a

theorem introduce_congr (h : t.frames = s.frames) (x : Symbol) :
    u.introduce t x = u.introduce s x := by
  rw [introduce, introduce, Store.isKeyword, Store.isKeyword, Store.transformer?_congr h]

theorem fills_rounds {p : Template} {ellipses : Nat} {bs : Bindings}
    {round : Bindings → Action (List Value)}
    (hround : ∀ row, Fills s (round row) fun t vs => FilledTimes u s t p ellipses (row ++ bs) vs)
    (rows : List Bindings) : Fills s (rows.mapM round)
      fun t vss => FilledRounds u s t p ellipses bs rows vss.flatten := by
  induction rows with
  | nil =>
    intro t t' a ht h
    cases h
    exact ⟨ht, .refl t, .none⟩
  | cons row rows ih =>
    intro t t' vss ht h
    rw [List.mapM_cons] at h
    obtain ⟨vs, t₁, hvs, h⟩ := Action.ok_of_bind h
    obtain ⟨wss, t₂, hwss, h⟩ := Action.ok_of_bind h
    cases h
    obtain ⟨ht₁, hg, hfirst⟩ := hround row _ _ _ ht hvs
    obtain ⟨ht₂, hg', hmore⟩ := ih _ _ _ ht₁ hwss
    exact ⟨ht₂, hg.trans hg', .more (hfirst.grow hg') hmore⟩

theorem fills_repeated {p : Template} {emit : Bindings → Action Value}
    (hemit : ∀ bs, Fills s (emit bs) fun t v => Filled u s t p bs v) (ellipses : Nat)
    (bs : Bindings) : Fills s (u.repeated p.vars emit ellipses bs)
      fun t vs => FilledTimes u s t p ellipses bs vs := by
  induction ellipses generalizing bs with
  | zero =>
    intro t t' vs ht h
    obtain ⟨v, t₁, hv, h⟩ := Action.ok_of_bind h
    cases h
    obtain ⟨ht₁, hg, hfilled⟩ := hemit bs _ _ _ ht hv
    exact ⟨ht₁, hg, .once hfilled⟩
  | succ ellipses ih =>
    intro t t' vs ht h
    unfold repeated at h
    generalize hdrivers : drivers p.vars bs = ds at h
    cases ds with
    | nil => cases h
    | cons d more =>
      obtain ⟨first, sequence⟩ := d
      dsimp only at h
      cases hfind : more.find? (·.2.length != sequence.length) with
      | some d =>
        rw [hfind] at h
        cases h
      | none =>
        rw [hfind] at h
        have hlength : ∀ d ∈ drivers p.vars bs, d.2.length = sequence.length := by
          rw [hdrivers]
          exact List.forall_mem_cons.mpr
            ⟨rfl, fun d hd => by simpa using List.find?_eq_none.mp hfind d hd⟩
        obtain ⟨vss, t₁, hvss, h⟩ := Action.ok_of_bind h
        cases h
        obtain ⟨ht₁, hg, hrounds⟩ := fills_rounds (fun row => ih (row ++ bs)) _ _ _ _ ht hvss
        rw [← hdrivers] at hrounds
        exact ⟨ht₁, hg, .rounds hlength hrounds⟩

mutual

theorem fills_transcribe : ∀ (p : Template) (bs : Bindings),
    Fills s (u.transcribe p bs) fun t v => Filled u s t p bs v
  | .variable x, bs => by
    intro t t' v ht h
    unfold transcribe at h
    cases hlookup : bs.lookup x with
    | none =>
      rw [hlookup] at h
      cases h
    | some b =>
      rw [hlookup] at h
      cases b with
      | one w =>
        cases h
        exact ⟨ht, .refl t, .variable hlookup⟩
      | many => cases h
  | .free x, bs => by
    intro t t' v ht h
    unfold transcribe at h
    cases h
    refine ⟨ht, .refl t, ?_⟩
    dsimp only
    rw [introduce_congr ht]
    exact .free
  | .constant c, bs => by
    intro t t' v ht h
    unfold transcribe at h
    cases h
    exact ⟨ht, .refl t, .constant⟩
  | .list items, bs => by
    intro t t' v ht h
    unfold transcribe at h
    obtain ⟨⟨vs, tail⟩, t₁, hitems, h⟩ := Action.ok_of_bind h
    obtain ⟨ht₁, hg, hfilled⟩ := fills_transcribeItems items bs _ _ _ ht hitems
    obtain ⟨hg', hspine⟩ := Build.listWithTail_spine vs tail t₁
    have hframes := congrArg Store.frames (Build.listWithTail_rest vs tail t₁)
    rw [Action.lift_ok h] at hg' hspine hframes
    exact ⟨hframes.trans ht₁, hg.trans hg', .list (hfilled.grow hg') hspine⟩
  | .vector items, bs => by
    intro t t' v ht h
    unfold transcribe at h
    obtain ⟨⟨vs, tail⟩, t₁, hitems, h⟩ := Action.ok_of_bind h
    obtain ⟨ht₁, hg, hfilled⟩ := fills_transcribeItems items bs _ _ _ ht hitems
    have hg' := t₁.grows_push_vector vs.toArray
    cases h
    exact ⟨ht₁, hg.trans hg',
      .vector (hfilled.grow hg') (by simp) (t₁.vectorAt_push_size vs.toArray)⟩

theorem fills_transcribeItems : ∀ (ps : TemplateSeq) (bs : Bindings),
    Fills s (u.transcribeItems ps bs) fun t parts => FilledItems u s t ps bs parts.1 parts.2
  | .done, bs => by
    intro t t' parts ht h
    unfold transcribeItems at h
    cases h
    exact ⟨ht, .refl t, .done⟩
  | .tail p, bs => by
    intro t t' parts ht h
    unfold transcribeItems at h
    obtain ⟨v, t₁, hv, h⟩ := Action.ok_of_bind h
    cases h
    obtain ⟨ht₁, hg, hfilled⟩ := fills_transcribe p bs _ _ _ ht hv
    exact ⟨ht₁, hg, .tail hfilled⟩
  | .item p ellipses more, bs => by
    intro t t' parts ht h
    unfold transcribeItems at h
    obtain ⟨vs, t₁, hvs, h⟩ := Action.ok_of_bind h
    obtain ⟨⟨ws, tail⟩, t₂, hws, h⟩ := Action.ok_of_bind h
    cases h
    obtain ⟨ht₁, hg, hfirst⟩ := fills_repeated (fun bs => fills_transcribe p bs) ellipses bs
      _ _ _ ht hvs
    obtain ⟨ht₂, hg', hmore⟩ := fills_transcribeItems more bs _ _ _ ht₁ hws
    exact ⟨ht₂, hg.trans hg', .item (hfirst.grow hg') hmore⟩

end

end MacroUse

end HygienicScheme
