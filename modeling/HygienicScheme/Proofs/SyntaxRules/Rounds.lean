import HygienicScheme.Proofs.SyntaxRules.Filling

/-!
# An ellipsis zips the sequences of its variables

Filling in a template under an ellipsis recomputes at every level which variables advance, and
keeps the bindings of a round in front of all others. The reference is told here without either:
a variable drives a template if it occurs in it and is bound to a sequence, and in round `i` each
driver is replaced by its entry `i` where it stands. A mismatch of two lengths is reported at the
first level where two drivers have one, and nowhere else.
-/
namespace HygienicScheme

theorem Action.mapM_congr {α β : Type} {f g : α → Action β} {as : List α}
    (h : ∀ a ∈ as, f a = g a) : as.mapM f = as.mapM g := by
  induction as with
  | nil => rfl
  | cons a more ih =>
    obtain ⟨ha, hmore⟩ := List.forall_mem_cons.mp h
    rw [List.mapM_cons, List.mapM_cons, ha, ih hmore]

def Binding.entry (i : Nat) : Binding → Binding
  | .one v => .one v
  | .many sequence => sequence.getD i (.many sequence)

namespace Template

variable {t t' : Template} {bs bs' : Bindings} {x : Symbol} {i : Nat}

theorem mem_vars : x ∈ t.vars ↔ x ∈ t.occurrences := mem_distinct

def Drives (t : Template) (bs : Bindings) (x : Symbol) (sequence : List Binding) : Prop :=
  x ∈ t.occurrences ∧ bs.lookup x = some (.many sequence)

def round (t : Template) (i : Nat) (bs : Bindings) : Bindings :=
  bs.map fun (x, b) => (x, if x ∈ t.occurrences then b.entry i else b)

theorem lookup_round : (t.round i bs).lookup x =
    (bs.lookup x).map fun b => if x ∈ t.occurrences then b.entry i else b := by
  induction bs with
  | nil => rfl
  | cons entry more ih =>
    obtain ⟨y, b⟩ := entry
    by_cases hx : x = y
    · subst hx
      simp [round]
    · have hxy : (x == y) = false := beq_eq_false_iff_ne.mpr hx
      simpa [round, List.lookup_cons, hxy] using ih

theorem lookup_round_driver {sequence : List Binding} (hx : t.Drives bs x sequence)
    (hi : i < sequence.length) : (t.round i bs).lookup x = some sequence[i] := by
  rw [lookup_round, hx.2, Option.map_some, if_pos hx.1, Binding.entry,
    List.getD_eq_getElem?_getD, List.getElem?_eq_getElem hi, Option.getD_some]

theorem lookup_round_other (hx : ∀ sequence, ¬ t.Drives bs x sequence) :
    (t.round i bs).lookup x = bs.lookup x := by
  rw [lookup_round]
  cases hlookup : bs.lookup x with
  | none => rfl
  | some b =>
    by_cases hoccurs : x ∈ t.occurrences
    · cases b with
      | one v => simp [Binding.entry]
      | many sequence => exact absurd ⟨hoccurs, hlookup⟩ (hx sequence)
    · simp [hoccurs]

def AgreeOn (vars : List Symbol) (bs bs' : Bindings) : Prop :=
  ∀ x ∈ vars, bs.lookup x = bs'.lookup x

end Template

open Template (AgreeOn)

mutual

inductive Template.Repeats : Template → Bindings → Template → Bindings → Prop
  | list {items bs t bs'} (h : items.Repeats bs t bs') : Template.Repeats (.list items) bs t bs'
  | vector {items bs t bs'} (h : items.Repeats bs t bs') : Template.Repeats (.vector items) bs t bs'

inductive TemplateSeq.Repeats : TemplateSeq → Bindings → Template → Bindings → Prop
  | tail {p bs t bs'} (h : p.Repeats bs t bs') : TemplateSeq.Repeats (.tail p) bs t bs'
  | item {p ellipses more bs t bs'} (h : p.RepeatsUnder ellipses bs t bs') :
      TemplateSeq.Repeats (.item p ellipses more) bs t bs'
  | more {p ellipses more bs t bs'} (h : more.Repeats bs t bs') :
      TemplateSeq.Repeats (.item p ellipses more) bs t bs'

inductive Template.RepeatsUnder : Template → Nat → Bindings → Template → Bindings → Prop
  | here {p k bs} : Template.RepeatsUnder p (k + 1) bs p bs
  | inside {p bs t bs'} (h : p.Repeats bs t bs') : Template.RepeatsUnder p 0 bs t bs'
  | round {p k bs t bs' x sequence i} (hx : p.Drives bs x sequence) (hi : i < sequence.length)
      (h : Template.RepeatsUnder p k (p.round i bs) t bs') :
      Template.RepeatsUnder p (k + 1) bs t bs'

end

namespace MacroUse

variable {u : MacroUse} {t : Template} {bs bs' row : Bindings} {vars : List Symbol} {n k : Nat}

def instances (u : MacroUse) (t : Template) (k : Nat) (bs : Bindings) : Action (List Value) :=
  u.repeated t.vars (u.transcribe t) k bs

/-! ### Only what occurs in a template matters -/

theorem drivers_congr (h : AgreeOn vars bs bs') : drivers vars bs = drivers vars bs' :=
  List.filterMap_congr fun x hx => by rw [h x hx]

theorem repeated_congr {emit : Bindings → Action Value}
    (hemit : ∀ bs bs', AgreeOn vars bs bs' → emit bs = emit bs') :
    ∀ {k bs bs'}, AgreeOn vars bs bs' → u.repeated vars emit k bs = u.repeated vars emit k bs'
  | 0, bs, bs', h => by
    rw [repeated, repeated, hemit bs bs' h]
  | k + 1, bs, bs', h => by
    have hrow : ∀ row, u.repeated vars emit k (row ++ bs) = u.repeated vars emit k (row ++ bs') :=
      fun row => repeated_congr hemit fun x hx => by
        rw [List.lookup_append, List.lookup_append, h x hx]
    unfold repeated
    simp only [drivers_congr h, hrow]

mutual

theorem transcribe_congr : ∀ {t : Template} {bs bs' : Bindings}, AgreeOn t.occurrences bs bs' →
    u.transcribe t bs = u.transcribe t bs'
  | .variable x, bs, bs', h => by
    rw [transcribe, transcribe, h x (List.mem_singleton_self x)]
  | .free x, _, _, _ => by
    rw [transcribe, transcribe]
  | .constant v, _, _, _ => by
    rw [transcribe, transcribe]
  | .list items, bs, bs', h => by
    rw [transcribe, transcribe, transcribeItems_congr h]
  | .vector items, bs, bs', h => by
    rw [transcribe, transcribe, transcribeItems_congr h]

theorem transcribeItems_congr : ∀ {ts : TemplateSeq} {bs bs' : Bindings},
    AgreeOn ts.occurrences bs bs' → u.transcribeItems ts bs = u.transcribeItems ts bs'
  | .done, _, _, _ => by
    rw [transcribeItems, transcribeItems]
  | .tail t, bs, bs', h => by
    rw [transcribeItems, transcribeItems, transcribe_congr h]
  | .item t k more, bs, bs', h => by
    have hitem : AgreeOn t.vars bs bs' := fun x hx =>
      h x (List.mem_append_left _ (Template.mem_vars.mp hx))
    have hinstances : u.repeated t.vars (u.transcribe t) k bs =
        u.repeated t.vars (u.transcribe t) k bs' :=
      repeated_congr (fun _ _ h => transcribe_congr fun x hx => h x (Template.mem_vars.mpr hx))
        hitem
    rw [transcribeItems, transcribeItems, hinstances,
      transcribeItems_congr fun x hx => h x (List.mem_append_right _ hx)]

end

theorem instances_congr (h : AgreeOn t.occurrences bs bs') :
    u.instances t k bs = u.instances t k bs' :=
  repeated_congr (fun _ _ h => transcribe_congr fun x hx => h x (Template.mem_vars.mpr hx))
    fun x hx => h x (Template.mem_vars.mp hx)

/-! ### One level -/

theorem mem_drivers_iff {d : Symbol × List Binding} :
    d ∈ drivers t.vars bs ↔ t.Drives bs d.1 d.2 := by
  rw [mem_drivers, Template.mem_vars, Template.Drives]

theorem drivers_eq_nil_iff :
    drivers t.vars bs = [] ↔ ∀ x sequence, ¬ t.Drives bs x sequence := by
  rw [List.eq_nil_iff_forall_not_mem]
  exact ⟨fun h x sequence hx => h (x, sequence) (mem_drivers_iff.mpr hx),
    fun h d hd => h d.1 d.2 (mem_drivers_iff.mp hd)⟩

theorem lookup_row {i : Nat} (hi : ∀ x sequence, t.Drives bs x sequence → i < sequence.length)
    (hrow : row = (drivers t.vars bs).filterMap fun d => d.2[i]?.map (d.1, ·)) (x : Symbol) :
    (row ++ bs).lookup x = (t.round i bs).lookup x := by
  have hentry : ∀ {y b}, (y, b) ∈ row ↔
      ∃ sequence, t.Drives bs y sequence ∧ sequence[i]? = some b := by
    intro y b
    rw [hrow, List.mem_filterMap]
    constructor
    · rintro ⟨d, hd, hb⟩
      obtain ⟨_, hget, heq⟩ := Option.map_eq_some_iff.mp hb
      cases heq
      exact ⟨d.2, mem_drivers_iff.mp hd, hget⟩
    · rintro ⟨sequence, hy, hget⟩
      exact ⟨(y, sequence), mem_drivers_iff.mpr hy, by rw [hget, Option.map_some]⟩
  rw [List.lookup_append]
  cases hlookup : row.lookup x with
  | some b =>
    obtain ⟨sequence, hx, hget⟩ := hentry.mp (SyntaxRules.mem_of_lookup hlookup)
    obtain ⟨hlt, rfl⟩ := List.getElem?_eq_some_iff.mp hget
    rw [Template.lookup_round_driver hx hlt, Option.some_or]
  | none =>
    rw [Template.lookup_round_other fun sequence hx => ?_, Option.none_or]
    have hmem := hentry.mpr ⟨sequence, hx, List.getElem?_eq_getElem (hi x sequence hx)⟩
    exact absurd rfl (bne_iff_ne.mp (List.lookup_eq_none_iff.mp hlookup _ hmem))

theorem instances_nothing (h : ∀ x sequence, ¬ t.Drives bs x sequence) :
    u.instances t (k + 1) bs = u.fail .nothingToRepeat := by
  rw [instances, repeated, drivers_eq_nil_iff.mpr h]

def Differ (u : MacroUse) (t : Template) (bs : Bindings) (e : Error) : Prop :=
  ∃ x xs y ys, t.Drives bs x xs ∧ t.Drives bs y ys ∧ xs.length ≠ ys.length ∧
    e = .ambiguous u.transformer.name x.name xs.length y.name ys.length

theorem instances_differ {x y : Symbol} {xs ys : List Binding} (hx : t.Drives bs x xs)
    (hy : t.Drives bs y ys) (hlength : xs.length ≠ ys.length) :
    ∃ e, u.Differ t bs e ∧ u.instances t (k + 1) bs = throw e := by
  rw [instances, repeated]
  cases hdrivers : drivers t.vars bs with
  | nil => exact absurd hx (drivers_eq_nil_iff.mp hdrivers x xs)
  | cons d more =>
    have hmem : ∀ d', d' ∈ d :: more ↔ t.Drives bs d'.1 d'.2 := fun d' => hdrivers ▸ mem_drivers_iff
    dsimp only
    cases hfind : more.find? (·.2.length != d.2.length) with
    | some d' =>
      have hne := List.find?_some hfind
      exact ⟨_, ⟨d.1, d.2, d'.1, d'.2, (hmem d).mp List.mem_cons_self,
        (hmem d').mp (List.mem_cons_of_mem d (List.mem_of_find?_eq_some hfind)),
        (bne_iff_ne.mp hne).symm, rfl⟩, rfl⟩
    | none =>
      have hall : ∀ d' ∈ d :: more, d'.2.length = d.2.length := List.forall_mem_cons.mpr
        ⟨rfl, fun d' hd' => by simpa using List.find?_eq_none.mp hfind d' hd'⟩
      exact absurd ((hall (x, xs) ((hmem _).mpr hx)).trans (hall (y, ys) ((hmem _).mpr hy)).symm)
        hlength

theorem instances_rounds {x : Symbol} {xs : List Binding} (hx : t.Drives bs x xs)
    (hlength : ∀ y ys, t.Drives bs y ys → ys.length = xs.length) :
    u.instances t (k + 1) bs = (do
      return (← (List.range xs.length).mapM fun i => u.instances t k (t.round i bs)).flatten) := by
  conv_lhs => rw [instances, repeated]
  cases hdrivers : drivers t.vars bs with
  | nil => exact absurd hx (drivers_eq_nil_iff.mp hdrivers x xs)
  | cons d more =>
    have hall : ∀ d' ∈ d :: more, d'.2.length = xs.length := fun d' hd' =>
      hlength d'.1 d'.2 (mem_drivers_iff.mp (hdrivers ▸ hd'))
    have hd := hall d List.mem_cons_self
    have hfind : more.find? (·.2.length != d.2.length) = none := by
      rw [List.find?_eq_none]
      intro d' hd'
      simp [hd, hall d' (List.mem_cons_of_mem d hd')]
    dsimp only
    rw [hfind]
    dsimp only
    rw [hd, rounds_eq, List.mapM_map]
    refine congrArg (· >>= fun vss => pure vss.flatten) (Action.mapM_congr fun i hi => ?_)
    refine repeated_congr (fun _ _ h => transcribe_congr fun x hx => h x (Template.mem_vars.mpr hx))
      fun y _ => ?_
    exact lookup_row (fun y ys hy => (hlength y ys hy).symm ▸ List.mem_range.mp hi)
      (by rw [hdrivers]) y

/-! ### Where the report comes from -/

def Reported (u : MacroUse) (comes : Template → Bindings → Prop) (e : Error) : Prop :=
  ∀ name first times second others, e = .ambiguous name first times second others →
    ∃ t bs, comes t bs ∧ u.Differ t bs e

theorem Reported.mono {comes comes' : Template → Bindings → Prop} {e : Error}
    (h : u.Reported comes e) (hcomes : ∀ t bs, comes t bs → comes' t bs) :
    u.Reported comes' e := by
  intro name first times second others he
  obtain ⟨t, bs, hcome, hdiffer⟩ := h name first times second others he
  exact ⟨t, bs, hcomes t bs hcome, hdiffer⟩

theorem reported_fail {comes : Template → Bindings → Prop} {α : Type} (problem : ShapeProblem) :
    (u.fail problem : Action α).FailsWith (u.Reported comes) :=
  .throw fun _ _ _ _ _ h => nomatch h

theorem instances_reported
    (ht : ∀ bs, (u.transcribe t bs).FailsWith (u.Reported (t.Repeats bs))) :
    ∀ k bs, (u.instances t k bs).FailsWith (u.Reported (t.RepeatsUnder k bs))
  | 0, bs => by
    rw [instances, repeated]
    refine Action.FailsWith.bind (fun s e s' h => ?_) fun v => .pure [v]
    exact (ht bs s e s' h).mono fun _ _ => .inside
  | k + 1, bs => by
    by_cases hdrives : ∃ x xs, t.Drives bs x xs
    · obtain ⟨x, xs, hx⟩ := hdrives
      by_cases hlength : ∀ y ys, t.Drives bs y ys → ys.length = xs.length
      · rw [instances_rounds hx hlength]
        refine .bind (.mapM fun i hi s e s' h => ?_) fun vss => .pure vss.flatten
        exact (instances_reported ht k (t.round i bs) s e s' h).mono fun _ _ =>
          .round hx (List.mem_range.mp hi)
      · push Not at hlength
        obtain ⟨y, ys, hy, hne⟩ := hlength
        obtain ⟨e, he, heq⟩ := instances_differ (u := u) (k := k) hx hy hne.symm
        rw [heq]
        exact .throw fun _ _ _ _ _ _ => ⟨t, bs, .here, he⟩
    · push Not at hdrives
      rw [instances_nothing hdrives]
      exact reported_fail .nothingToRepeat

mutual

theorem transcribe_reported : ∀ (t : Template) (bs : Bindings),
    (u.transcribe t bs).FailsWith (u.Reported (t.Repeats bs))
  | .variable x, bs => by
    rw [transcribe]
    split
    · exact .pure _
    · exact reported_fail _
    · exact reported_fail _
  | .free x, _ => by
    rw [transcribe]
    exact (Action.FailsWith.inspect _).bind fun _ => .pure _
  | .constant v, _ => by
    rw [transcribe]
    exact .pure v
  | .list items, bs => by
    rw [transcribe]
    refine Action.FailsWith.bind (fun s e s' h => ?_) fun _ => .lift _
    exact (transcribeItems_reported items bs s e s' h).mono fun _ _ => .list
  | .vector items, bs => by
    rw [transcribe]
    refine Action.FailsWith.bind (fun s e s' h => ?_) fun _ => .lift _
    exact (transcribeItems_reported items bs s e s' h).mono fun _ _ => .vector

theorem transcribeItems_reported : ∀ (ts : TemplateSeq) (bs : Bindings),
    (u.transcribeItems ts bs).FailsWith (u.Reported (ts.Repeats bs))
  | .done, _ => by
    rw [transcribeItems]
    exact .pure _
  | .tail t, bs => by
    rw [transcribeItems]
    refine Action.FailsWith.bind (fun s e s' h => ?_) fun _ => .pure _
    exact (transcribe_reported t bs s e s' h).mono fun _ _ => .tail
  | .item t k more, bs => by
    rw [transcribeItems]
    refine Action.FailsWith.bind (fun s e s' h => ?_) fun vs =>
      Action.FailsWith.bind (fun s e s' h => ?_) fun _ => .pure _
    · exact (instances_reported (transcribe_reported t) k bs s e s' h).mono fun _ _ => .item
    · exact (transcribeItems_reported more bs s e s' h).mono fun _ _ => .more

end

/-! ### All levels -/

/-- Filling in a template under ellipses, against the reference. -/
structure Zips (u : MacroUse) (t : Template) : Prop where
  /-- What an element behind ellipses contributes to a sequence. -/
  element : ∀ k more bs, u.transcribeItems (.item t k more) bs = (do
    let vs ← u.instances t k bs
    let (items, tail) ← u.transcribeItems more bs
    return (vs ++ items, tail))
  once : ∀ bs, u.instances t 0 bs = (do return [← u.transcribe t bs])
  nothing : ∀ k bs, (∀ x xs, ¬ t.Drives bs x xs) →
    u.instances t (k + 1) bs = u.fail .nothingToRepeat
  differ : ∀ k bs x xs y ys, t.Drives bs x xs → t.Drives bs y ys → xs.length ≠ ys.length →
    ∃ e, u.Differ t bs e ∧ u.instances t (k + 1) bs = throw e
  rounds : ∀ k bs x xs, t.Drives bs x xs →
    (∀ y ys, t.Drives bs y ys → ys.length = xs.length) →
    u.instances t (k + 1) bs = (do
      return (← (List.range xs.length).mapM fun i => u.instances t k (t.round i bs)).flatten)
  /-- In a round every driver is replaced by its entry. -/
  entry : ∀ bs x xs, t.Drives bs x xs → ∀ i, (hi : i < xs.length) →
    (t.round i bs).lookup x = some xs[i]
  unchanged : ∀ bs x, (∀ xs, ¬ t.Drives bs x xs) → ∀ i, (t.round i bs).lookup x = bs.lookup x
  /-- Different lengths are reported where two drivers have them and nowhere else. -/
  reported : ∀ k bs, (u.instances t k bs).FailsWith (u.Reported (t.RepeatsUnder k bs))
  /-- What does not occur in the template makes no difference. -/
  unaffected : ∀ k bs bs', AgreeOn t.occurrences bs bs' → u.instances t k bs = u.instances t k bs'

theorem zips (u : MacroUse) (t : Template) : u.Zips t where
  element k more bs := by rw [transcribeItems, instances]
  once bs := by rw [instances, repeated]
  nothing _ _ := instances_nothing
  differ _ _ _ _ _ _ := instances_differ
  rounds _ _ _ _ := instances_rounds
  entry _ _ _ hx _ hi := Template.lookup_round_driver hx hi
  unchanged _ _ hx _ := Template.lookup_round_other hx
  reported := instances_reported (transcribe_reported t)
  unaffected _ _ _ := instances_congr

end MacroUse
end HygienicScheme
