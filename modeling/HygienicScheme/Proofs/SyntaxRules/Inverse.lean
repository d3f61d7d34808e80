import HygienicScheme.Proofs.SyntaxRules.Deciding
import HygienicScheme.Proofs.SyntaxRules.Filling
import HygienicScheme.Proofs.SyntaxRules.Mirror

/-!
# Transcription undoes matching

Filling in the mirror of a pattern with what a match has bound gives a copy of the form that was
matched. The copy is new where the pattern has structure and shares with the form what the
variables stand for, so it is no deeper than the cells it took to build.
-/
namespace HygienicScheme

namespace Action

def Makes {α : Type} (x : Action α) (s : Store) (Q : Store → Nat → α → Prop) : Prop :=
  ∃ a t n, x s = .ok a t ∧ s.Grows t ∧ s.cells + n ≤ t.cells ∧ Q t n a

namespace Makes

variable {α β : Type} {s : Store} {Q : Store → Nat → α → Prop} {R : Store → Nat → β → Prop}

theorem pure {a : α} (h : Q s 0 a) : (Pure.pure a : Action α).Makes s Q :=
  ⟨a, s, 0, rfl, .refl s, Nat.le_refl _, h⟩

theorem bind {x : Action α} {f : α → Action β} (hx : x.Makes s Q)
    (hf : ∀ a t n, s.Grows t → Q t n a → (f a).Makes t fun u m b => R u (n + m) b) :
    (x >>= f).Makes s R := by
  obtain ⟨a, t, n, hxs, hst, hcells, ha⟩ := hx
  obtain ⟨b, u, m, hfa, htu, hcells', hb⟩ := hf a t n hst ha
  refine ⟨b, u, n + m, ?_, hst.trans htu, by omega, hb⟩
  change EStateM.bind x f s = _
  rw [EStateM.bind, hxs]
  exact hfa

end Makes

end Action

theorem Assignment.Collects.isSome_iff {vars : List Symbol} {ρs : List Assignment}
    {σ : Assignment} (h : Collects vars ρs σ) (x : Symbol) : (σ x).isSome ↔ x ∈ vars := by
  by_cases hx : x ∈ vars
  · obtain ⟨bs, hbs, -⟩ := h.many x hx
    simp [hx, hbs]
  · simp [hx, h.none x hx]

namespace Store

variable {s t : Store} {m m' : Remainder} {v tail : Value} {vs : List Value} {p : Pattern}
  {ps : PatternSeq} {σ : Assignment} {n : Nat}

def Lies (s : Store) : Remainder → List Value → Value → Prop
  | .cells v, vs, tail => s.Spine v vs tail
  | .slots ws, vs, tail => ws = vs ∧ tail = .null

theorem Takes.lies (h : s.Takes m v m') (hm : s.RowThroughout s.Located m)
    (hlies : s.Lies m' vs tail) : s.Lies m (v :: vs) tail := by
  cases h with
  | pair => exact .cons hm.here hlies
  | slot => exact ⟨congrArg _ hlies.1, hlies.2⟩

mutual

theorem Instance.isSome_iff : ∀ {p : Pattern} {v : Value} {σ : Assignment}, s.Instance p v σ →
    ∀ x, (σ x).isSome ↔ x ∈ p.vars
  | .wildcard, _, _, h, x | .literal _, _, _, h, x | .constant _, _, _, h, x => by
    cases h
    simp [Assignment.nothing, Pattern.vars]
  | .variable y, _, _, h, x => by
    cases h
    by_cases hx : x = y
    · simp [Assignment.single, Pattern.vars, hx]
    · simp [Assignment.single, Pattern.vars, hx]
  | .list ps, _, _, h, x => by
    cases h with
    | list _ h => exact InstanceItems.isSome_iff h x
  | .vector ps, _, _, h, x => by
    cases h with
    | vector h => exact InstanceItems.isSome_iff h x

theorem InstanceItems.isSome_iff : ∀ {ps : PatternSeq} {m : Remainder} {σ : Assignment},
    s.InstanceItems ps m σ → ∀ x, (σ x).isSome ↔ x ∈ ps.vars
  | .done, _, _, h, x => by
    cases h
    simp [Assignment.nothing, PatternSeq.vars]
  | .rest p, _, _, h, x => by
    cases h with
    | rest h => exact Instance.isSome_iff h x
  | .item p ps, _, _, h, x => by
    cases h with
    | item _ h hmore =>
      simp [Assignment.union, PatternSeq.vars, Instance.isSome_iff h x,
        InstanceItems.isSome_iff hmore x]
  | .repeated p ps, _, _, h, x => by
    cases h with
    | repeated _ hσ hmore =>
      simp [Assignment.union, PatternSeq.vars, hσ.isSome_iff x, InstanceItems.isSome_iff hmore x]

end

end Store

def Bindings.Agree (bs : Bindings) (vars : List Symbol) (σ : Assignment) : Prop :=
  ∀ x ∈ vars, bs.lookup x = σ x

theorem Bindings.Agree.union {bs : Bindings} {xs ys : List Symbol} {σ τ : Assignment}
    (h : bs.Agree (xs ++ ys) (σ.union τ)) (hσ : ∀ x, (σ x).isSome ↔ x ∈ xs)
    (hnodup : (xs ++ ys).Nodup) : bs.Agree xs σ ∧ bs.Agree ys τ := by
  constructor
  · intro x hx
    obtain ⟨b, hb⟩ := Option.isSome_iff_exists.mp ((hσ x).mpr hx)
    rw [h x (List.mem_append_left _ hx), Assignment.union, hb]
    rfl
  · intro y hy
    have hnone : σ y = none := by
      by_contra hsome
      exact (List.nodup_append.mp hnodup).2.2 y ((hσ y).mp (Option.isSome_iff_ne_none.mpr hsome)) y
        hy rfl
    rw [h y (List.mem_append_right _ hy), Assignment.union, hnone]
    rfl

mutual

theorem Mirror.mem_occurrences : ∀ {p : Pattern} {t : Template}, Mirror p t →
    ∀ x, x ∈ t.occurrences ↔ x ∈ p.vars
  | .wildcard, _, h, _ | .literal _, _, h, _ => nomatch h
  | .variable _, _, h, x | .constant _, _, h, x => by
    cases h
    rfl
  | .list ps, _, h, x => by
    cases h with
    | null => rfl
    | list h => exact MirrorItems.mem_occurrences h x
  | .vector ps, _, h, x => by
    cases h with
    | vector h => exact MirrorItems.mem_occurrences h x

theorem MirrorItems.mem_occurrences : ∀ {ps : PatternSeq} {ts : TemplateSeq}, MirrorItems ps ts →
    ∀ x, x ∈ ts.occurrences ↔ x ∈ ps.vars
  | .done, _, h, x => by
    cases h
    rfl
  | .rest p, _, h, x => by
    cases h with
    | rest h => exact Mirror.mem_occurrences h x
  | .item p ps, _, h, x => by
    cases h with
    | item h hmore =>
      simp [TemplateSeq.occurrences, PatternSeq.vars, Mirror.mem_occurrences h x,
        MirrorItems.mem_occurrences hmore x]
  | .repeated p ps, _, h, x => by
    cases h with
    | repeated h _ hmore =>
      simp [TemplateSeq.occurrences, PatternSeq.vars, Mirror.mem_occurrences h x,
        MirrorItems.mem_occurrences hmore x]

end

namespace MacroUse

variable {u : MacroUse} {s s' : Store} {p : Pattern} {ps : PatternSeq} {t : Template}
  {ts : TemplateSeq} {m m' : Remainder} {v : Value} {σ : Assignment} {ρs : List Assignment}
  {bs : Bindings} {vars : List Symbol}

theorem lookup_round {ds : List (Symbol × List Binding)} {i : Nat} {x : Symbol}
    {sequence : List Binding} {b : Binding} (hx : (x, sequence) ∈ ds)
    (hds : ∀ d ∈ ds, d.1 = x → d.2 = sequence) (hb : sequence[i]? = some b) :
    (ds.filterMap fun d => d.2[i]?.map (d.1, ·)).lookup x = some b := by
  have hentry : (x, b) ∈ ds.filterMap fun d => d.2[i]?.map (d.1, ·) :=
    List.mem_filterMap.mpr ⟨_, hx, by rw [hb]; rfl⟩
  obtain ⟨b', hb'⟩ := Option.isSome_iff_exists.mp
    (List.lookup_isSome_iff.mpr ⟨_, hentry, beq_self_eq_true x⟩)
  obtain ⟨d, hd, hfound⟩ := List.mem_filterMap.mp (SyntaxRules.mem_of_lookup hb')
  obtain ⟨c, hc, hpair⟩ := Option.map_eq_some_iff.mp hfound
  obtain ⟨hkey, rfl⟩ := Prod.mk.inj hpair
  rw [hds d hd hkey] at hc
  rw [hb', ← hc, hb]

theorem repeated_once {emit : Bindings → Action Value} (hσ : Assignment.Collects vars ρs σ)
    {occurring : List Symbol} (hoccurring : ∀ x, x ∈ occurring ↔ x ∈ vars) (hvars : vars ≠ [])
    (hbs : bs.Agree vars σ) :
    ∃ rows : List Bindings, List.Forall₂ (fun ρ row => row.Agree vars ρ) ρs rows ∧
      u.repeated occurring emit 1 bs =
        (rows.mapM fun row => do return [← emit row]) >>= fun vss => pure vss.flatten := by
  -- Each variable has gathered one binding for each round.
  have hdriver : ∀ x ∈ vars, ∃ sequence, (x, sequence) ∈ drivers occurring bs ∧
      List.Forall₂ (fun ρ b => ρ x = some b) ρs sequence := by
    intro x hx
    obtain ⟨sequence, hsequence, hall⟩ := hσ.many x hx
    exact ⟨sequence, mem_drivers.mpr ⟨(hoccurring x).mpr hx, (hbs x hx).trans hsequence⟩, hall⟩
  -- So all drivers are of one length, and the rounds are taken.
  have hlength : ∀ d ∈ drivers occurring bs, d.2.length = ρs.length := by
    intro d hd
    obtain ⟨hx, hlookup⟩ := mem_drivers.mp hd
    obtain ⟨sequence, hmem, hall⟩ := hdriver d.1 ((hoccurring _).mp hx)
    cases hlookup.symm.trans (mem_drivers.mp hmem).2
    exact hall.length_eq.symm
  have hunique : ∀ x sequence, (x, sequence) ∈ drivers occurring bs →
      ∀ d ∈ drivers occurring bs, d.1 = x → d.2 = sequence := by
    rintro x sequence hx d hd rfl
    cases (mem_drivers.mp hd).2.symm.trans (mem_drivers.mp hx).2
    rfl
  refine ⟨(rounds ρs.length (drivers occurring bs)).map (· ++ bs), ?_, ?_⟩
  · rw [rounds_eq, List.map_map, List.forall₂_map_right_iff, List.forall₂_iff_get]
    refine ⟨by simp, fun i hi hi' => ?_⟩
    intro x hx
    obtain ⟨sequence, hmem, hall⟩ := hdriver x hx
    have hlt : i < sequence.length := hall.length_eq ▸ hi
    have hround := lookup_round hmem (hunique x sequence hmem) (List.getElem?_eq_getElem hlt)
    have hb : ρs[i] x = some sequence[i] := hall.get hi hlt
    simp only [List.get_eq_getElem, List.getElem_range, Function.comp_apply, List.lookup_append,
      hround, hb]
    rfl
  · unfold repeated
    obtain ⟨x, hx⟩ := List.exists_mem_of_ne_nil vars hvars
    obtain ⟨sequence, hmem, -⟩ := hdriver x hx
    generalize drivers occurring bs = ds at hlength hmem
    cases ds with
    | nil => cases hmem
    | cons d more =>
      obtain ⟨first, sequence⟩ := d
      obtain ⟨hfirst, hmore⟩ := List.forall_mem_cons.mp hlength
      have hfind : more.find? (·.2.length != sequence.length) = none :=
        List.find?_eq_none.mpr fun d hd => by simp [hmore d hd, hfirst]
      dsimp only at hfirst ⊢
      rw [hfind, ← hfirst, List.mapM_map]
      rfl

/-- Copies of the items of a list and of its end make a copy of the list. -/
theorem makes_list (hst : s.Grows s')
    (h : (u.transcribeItems ts bs).Makes s' fun t n parts => ∃ vs tail, s.Lies (.cells v) vs tail ∧
      List.Forall₂ (t.Copies n) parts.1 vs ∧ t.Copies n parts.2 tail) :
    (u.transcribe (.list ts) bs).Makes s' fun t n w => t.Copies n w v := by
  unfold transcribe
  refine h.bind ?_
  rintro ⟨ws, tail'⟩ t n hgrows ⟨vs, tail, hlies, hws, htail⟩
  obtain ⟨hbuilt, hspine⟩ := Build.listWithTail_spine ws tail' t
  refine ⟨_, _, ws.length, rfl, hbuilt,
    Nat.le_of_eq (Build.listWithTail_cells ws tail' t).symm, ?_⟩
  exact .spine hspine (hlies.grow ((hst.trans hgrows).trans hbuilt))
    (hws.imp fun _ _ h => h.grow hbuilt) (htail.grow hbuilt)

theorem makes_vector {a : Address} {ws : List Value} {n : Nat} (hst : s.Grows s')
    (ha : a < s.vectors.size) (hws : List.Forall₂ (s'.Copies n) ws (s.vectorAt a).toList) :
    (liftM (Build.vector ws.toArray) : Action Value).Makes s' fun t k w =>
      t.Copies (n + k) w (.vector a) := by
  have hgrows := s'.grows_push_vector ws.toArray
  have hgrown := hst.trans hgrows
  refine ⟨.vector s'.vectors.size, _, 1, rfl, hgrows, ?_, .vector ?_ ?_ ?_⟩
  · simp only [Store.cells, Array.size_push]
    omega
  · simp
  · exact Nat.lt_of_lt_of_le ha hgrown.vectors_le
  · rw [hgrown.vectorAt_eq ha, s'.vectorAt_push_size]
    exact hws.imp fun _ _ h => h.grow hgrows

theorem makes_repetitions {emit : Bindings → Action Value}
    (hemit : ∀ {v ρ row s'}, s.Instance p v ρ → s.Inside v → s.Grows s' →
      Bindings.Agree row p.vars ρ → (emit row).Makes s' fun t n w => t.Copies n w v)
    {rows : List Bindings} (h : s.Repetitions p m ρs m') (hm : s.RowThroughout s.Located m)
    (hrows : List.Forall₂ (fun ρ row => Bindings.Agree row p.vars ρ) ρs rows) (hst : s.Grows s') :
    s.RowThroughout s.Located m' ∧ (rows.mapM fun row => do return [← emit row]).Makes s'
      fun t n wss => ∃ vs, (∀ {more tail}, s.Lies m' more tail → s.Lies m (vs ++ more) tail) ∧
        List.Forall₂ (t.Copies n) wss.flatten vs := by
  induction hrows generalizing m s' with
  | nil =>
    cases h
    exact ⟨hm, .pure ⟨[], id, .nil⟩⟩
  | cons hrow _ ih =>
    cases h with
    | more htakes hv hmore =>
      obtain ⟨hinside, hm'⟩ := htakes.throughout hm
      refine ⟨(ih hmore hm' hst).1, ?_⟩
      have hhead := (hemit hv hinside hst hrow).bind
        (R := fun t n ws => ∃ w, ws = [w] ∧ t.Copies n w _) fun w t n _ hw => .pure ⟨w, rfl, hw⟩
      rw [List.mapM_cons]
      refine hhead.bind ?_
      rintro _ t n hgrows ⟨w, rfl, hw⟩
      refine (ih hmore hm' (hst.trans hgrows)).2.bind ?_
      rintro wss t' k hgrows' ⟨vs, hlies, hvs⟩
      refine .pure ⟨_ :: vs, fun hrest => htakes.lies hm (hlies hrest), ?_⟩
      exact .cons ((hw.grow hgrows').mono (Nat.le_add_right _ _))
        (hvs.imp fun _ _ h => h.mono (Nat.le_add_left _ _))

mutual

theorem transcribe_makes : ∀ {p : Pattern} {t : Template} {v : Value} {σ : Assignment}
    {bs : Bindings} {s' : Store}, Mirror p t → p.vars.Nodup → s.Instance p v σ → s.Inside v →
    s.Grows s' → bs.Agree p.vars σ → (u.transcribe t bs).Makes s' fun t n w => t.Copies n w v
  | .wildcard, _, _, _, _, _, h, _, _, _, _, _ | .literal _, _, _, _, _, _, h, _, _, _, _, _ =>
    nomatch h
  | .variable x, _, v, _, _, _, h, _, hv, _, _, hbs => by
    cases h
    cases hv
    unfold transcribe
    rw [hbs x (List.mem_singleton_self x), Assignment.single, if_pos rfl]
    exact .pure (.refl v)
  | .constant c, _, v, _, _, _, h, _, hv, _, _, _ => by
    cases h with
    | constant hc hw hsame =>
      cases hv with
      | constant hv =>
        have hwalk := Store.equalWithin_succ hv
        rw [Store.equalWithin_constant hc, Option.some.injEq] at hwalk
        unfold transcribe
        exact .pure (.constant hw (Value.same_right hsame hwalk))
  | .list ps, _, v, _, _, _, h, hvars, hv, hinside, hst, hbs => by
    cases hv with
    | list _ hv =>
      cases h with
      | null =>
        cases hv with
        | done hv =>
          unfold transcribe
          cases hv
          exact .pure (.refl _)
      | list h => exact makes_list hst (transcribeItems_makes h hvars hv hinside hst hbs)
  | .vector ps, _, _, _, _, _, h, hvars, hv, hinside, hst, hbs => by
    cases h with
    | vector h =>
      cases hv with
      | vector hv =>
        unfold transcribe
        have hitems : ∀ w ∈ _, s.Inside w := fun w hw => hinside.slot (.item hw)
        refine (transcribeItems_makes h hvars hv hitems hst hbs).bind ?_
        rintro ⟨ws, tail'⟩ t n hgrows ⟨vs, tail, ⟨rfl, -⟩, hws, -⟩
        exact makes_vector (hst.trans hgrows) hinside.here hws

theorem transcribeItems_makes : ∀ {ps : PatternSeq} {ts : TemplateSeq} {m : Remainder}
    {σ : Assignment} {bs : Bindings} {s' : Store}, MirrorItems ps ts → ps.vars.Nodup →
    s.InstanceItems ps m σ → s.RowThroughout s.Located m → s.Grows s' → bs.Agree ps.vars σ →
    (u.transcribeItems ts bs).Makes s' fun t n parts => ∃ vs tail, s.Lies m vs tail ∧
      List.Forall₂ (t.Copies n) parts.1 vs ∧ t.Copies n parts.2 tail
  | .done, _, m, _, _, _, h, _, hm, _, _, _ => by
    cases h
    cases hm with
    | done hm =>
      unfold transcribeItems
      refine .pure ⟨[], .null, ?_, .nil, .refl _⟩
      cases m with
      | cells v =>
        cases hm
        exact .nil
      | slots vs => exact ⟨hm, rfl⟩
  | .rest p, _, _, _, _, _, h, hvars, hm, hinside, hst, hbs => by
    cases h with
    | rest h =>
      cases hm with
      | rest hv =>
        unfold transcribeItems
        refine (transcribe_makes h hvars hv hinside hst hbs).bind ?_
        exact fun w t n _ hw => .pure ⟨[], _, .nil, .nil, hw⟩
  | .item p ps, _, _, _, _, _, h, hvars, hm, hinside, hst, hbs => by
    obtain ⟨hpvars, hpsvars, -⟩ := List.nodup_append.mp hvars
    cases h with
    | item h hmore =>
      cases hm with
      | item htakes hv hitems =>
        obtain ⟨hfirst, hrest⟩ := hbs.union hv.isSome_iff hvars
        obtain ⟨hv', hm'⟩ := htakes.throughout hinside
        have hhead := (transcribe_makes h hpvars hv hv' hst hfirst).bind
          (R := fun t n ws => ∃ w, ws = [w] ∧ t.Copies n w _) fun w t n _ hw => .pure ⟨w, rfl, hw⟩
        unfold transcribeItems
        refine Action.Makes.bind hhead ?_
        rintro _ t n hgrows ⟨w, rfl, hw⟩
        refine (transcribeItems_makes hmore hpsvars hitems hm' (hst.trans hgrows) hrest).bind ?_
        rintro ⟨ws, tail'⟩ t' k hgrows' ⟨vs, tail, hlies, hws, htail⟩
        refine .pure
          ⟨_ :: vs, tail, htakes.lies hinside hlies, ?_, htail.mono (Nat.le_add_left _ _)⟩
        exact .cons ((hw.grow hgrows').mono (Nat.le_add_right _ _))
          (hws.imp fun _ _ h => h.mono (Nat.le_add_left _ _))
  | .repeated p ps, _, _, _, _, _, h, hvars, hm, hinside, hst, hbs => by
    obtain ⟨hpvars, hpsvars, -⟩ := List.nodup_append.mp hvars
    cases h with
    | @repeated _ t _ _ h hne hmore =>
      cases hm with
      | repeated hrepetitions hσ hitems =>
        obtain ⟨hfirst, hrest⟩ := hbs.union hσ.isSome_iff hvars
        have hoccurring : ∀ x, x ∈ t.vars ↔ x ∈ p.vars := fun x =>
          mem_distinct.trans (h.mem_occurrences x)
        -- The template has the variables of the pattern, so it takes a round for each repetition.
        obtain ⟨rows, hrows, heq⟩ := repeated_once (u := u) hσ hoccurring hne hfirst
        obtain ⟨hm', hrepeated⟩ := makes_repetitions (fun hv hinside hst hrow =>
          transcribe_makes h hpvars hv hinside hst hrow) hrepetitions hinside hrows hst
        unfold transcribeItems
        rw [heq, bind_assoc]
        refine hrepeated.bind ?_
        rintro wss t n hgrows ⟨vs, hlies, hwss⟩
        rw [pure_bind]
        refine (transcribeItems_makes hmore hpsvars hitems hm' (hst.trans hgrows) hrest).bind ?_
        rintro ⟨ws, tail'⟩ t' k hgrows' ⟨more, tail, hmorelies, hws, htail⟩
        refine .pure ⟨vs ++ more, tail, hlies hmorelies, ?_, htail.mono (Nat.le_add_left _ _)⟩
        exact List.rel_append
          (hwss.imp fun _ _ h => (h.grow hgrows').mono (Nat.le_add_right _ _))
          (hws.imp fun _ _ h => h.mono (Nat.le_add_left _ _))

end

theorem transcribe_makes_rest (h : MirrorRest ps t) (hvars : ps.vars.Nodup)
    (hv : s.InstanceItems ps (.cells v) σ) (hinside : s.Inside v) (hst : s.Grows s')
    (hbs : bs.Agree ps.vars σ) : (u.transcribe t bs).Makes s' fun t n w => t.Copies n w v := by
  cases h with
  | rest h =>
    cases hv with
    | rest hv => exact transcribe_makes h hvars hv hinside hst hbs
  | null =>
    cases hv with
    | done hv =>
      cases hv
      unfold transcribe
      exact .pure (.refl _)
  | list h => exact makes_list hst (transcribeItems_makes h hvars hv hinside hst hbs)

/-- If the template of a rule is written like what follows the keyword in its pattern, and nothing
is left open there without a variable, then filling in what a use has bound gives back what
followed the keyword in the use. -/
theorem transcribe_undoes_match {c : SyntaxRules.Scope} {number : Nat} {clause q : Value}
    {a b : Address} {r : Rule} (hrule : SyntaxRules.rule c number clause = .ok r)
    (hclause : c.store.properList? clause = some [.pair a, q])
    (hq : c.store.equal? (c.store.pairAt a).cdr q = some true)
    (hpattern : r.pattern = .list (.item .wildcard ps)) (hps : ps.Reversible)
    (hform : s.Inside (.pair b)) (hmatch : r.bindings s (.pair b) = .ok bs) (hst : s.Grows s') :
    ∃ w t, u.transcribe r.template bs s' = .ok w t ∧ t.equal? w (t.pairAt b).cdr = some true := by
  obtain ⟨hwell, hvars, hdepths⟩ := SyntaxRules.rule_shape hrule
  obtain ⟨p, q', hclause', hread, htemplate⟩ := SyntaxRules.ruleOf hrule
  cases hclause.symm.trans hclause'
  obtain ⟨_, head, items, tail, ps', heq, hchain, hpattern', hitems⟩ :=
    SyntaxRules.rulePatternOf hread
  cases heq
  dsimp only at hpattern' hitems
  cases hpattern.symm.trans hpattern'
  rw [hpattern] at hwell hvars hdepths
  rw [Rule.bindings, hpattern] at hmatch
  have hkeys : r.depths.map Prod.fst = ps.vars := by rw [hdepths, Pattern.map_fst_depths]; rfl
  have hrest : MirrorRest ps r.template := by
    cases hchain with
    | pair hchain =>
      refine hitems.mirrorRest hchain hps (fun x hx => ?_) ⟨_, hq⟩ htemplate
      obtain ⟨d, hd, rfl⟩ := List.mem_map.mp (hkeys ▸ hx)
      exact Option.isSome_iff_exists.mp
        (List.lookup_isSome_iff.mpr ⟨d, hd, beq_self_eq_true d.1⟩)
  have hinstance := SyntaxRules.instance_of_match hwell hvars hmatch
  generalize hσ : bs.assignment = σ at hinstance
  cases hinstance with
  | list _ hinstance =>
    cases hinstance with
    | @item _ _ _ _ _ _ τ htakes hwild hmore =>
      cases htakes
      cases hwild
      have hagree : bs.Agree ps.vars τ := fun x _ => congrFun hσ x
      obtain ⟨w, t, n, hw, hgrows, hcells, hcopy⟩ :=
        transcribe_makes_rest (u := u) hrest hvars hmore (hform.slot .cdr) hst hagree
      refine ⟨w, t, hw, ?_⟩
      rw [(hst.trans hgrows).pairAt_eq hform.here]
      exact hcopy.equal? (by omega)

theorem transcribe_undoes_match_each : ∃ w t,
    transcribe ⟨each, ⟨0, []⟩, 1, 0⟩ each.rules[0].template
      [(.user "x", .many [.one (.int 1), .one (.int 2)])] eachUse = .ok w t ∧
    t.equal? w (t.pairAt 10).cdr = some true := by
  have hleaf : ∀ v : Value, (∀ a, v ≠ .pair a) → (∀ a, v ≠ .vector a) → eachUse.Inside v :=
    fun v hp hv => Store.throughout_leaf hp hv (by
      cases v with
      | pair a => exact absurd rfl (hp a)
      | vector a => exact absurd rfl (hv a)
      | _ => trivial)
  have hcell : ∀ {a : Address}, a < eachUse.pairs.size → eachUse.Inside (eachUse.pairAt a).car →
      eachUse.Inside (eachUse.pairAt a).cdr → eachUse.Inside (.pair a) := by
    intro a ha hcar hcdr
    refine Store.throughout_of_slots ha fun w hw => ?_
    cases hw with
    | car => exact hcar
    | cdr => exact hcdr
  have hform : eachUse.Inside (.pair 10) :=
    hcell (by decide) (hleaf _ nofun nofun) (hcell (a := 11) (by decide) (hleaf _ nofun nofun)
      (hcell (a := 12) (by decide) (hleaf _ nofun nofun) (hleaf _ nofun nofun)))
  exact transcribe_undoes_match rule_each rfl rfl rfl ⟨by simp [Pattern.vars], trivial, trivial⟩
    hform rfl (.refl _)

end MacroUse

end HygienicScheme
