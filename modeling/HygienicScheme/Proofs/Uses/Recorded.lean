import HygienicScheme.Proofs.Discipline.Expansion
import Mathlib.Data.List.Nodup

/-!
# Expansion with a record of its uses

The result of an expansion does not tell which uses of transformers were transcribed on the way.
An observer that keeps a record of them has them in order, whatever becomes of the expansion
afterwards. Without the record nothing is different, and the uses on record have the phase of the
expansion and the indices from the next one on.
-/
namespace HygienicScheme

def Recorded (α : Type) : Type := Store → EStateM.Result Error Store α × List MacroUse

namespace Recorded

variable {α β γ : Type}

def pure (a : α) : Recorded α := fun s => (.ok a s, [])

def bind (x : Recorded α) (f : α → Recorded β) : Recorded β := fun s =>
  match x s with
  | (.ok a t, uses) => ((f a t).1, uses ++ (f a t).2)
  | (.error e t, uses) => (.error e t, uses)

instance : Monad Recorded where
  pure := pure
  bind := bind

instance : MonadLift Action Recorded := ⟨fun x s => (x s, [])⟩

theorem bind_pure (x : Recorded α) : bind x pure = x := by
  funext s
  unfold bind
  rcases x s with ⟨_ | _, uses⟩
  · simp [pure]
  · rfl

theorem bind_assoc (x : Recorded α) (f : α → Recorded β) (g : β → Recorded γ) :
    bind (bind x f) g = bind x fun a => bind (f a) g := by
  funext s
  unfold bind
  rcases x s with ⟨_ | _, uses⟩
  · rename_i a t
    dsimp only
    rcases f a t with ⟨_ | _, more⟩
    · simp
    · rfl
  · rfl

instance : LawfulMonad Recorded := .mk' _ bind_pure (fun _ _ => rfl) bind_assoc

end Recorded

def MacroUse.stamp (u : MacroUse) : Int × Nat := (u.phase, u.index)

def Recorded.tell (u : MacroUse) : Recorded Unit := fun s => (.ok () s, [u])

namespace Expansion

def expandToplevelRecorded (env : Environment) (form : Value) : Recorded Value :=
  expandToplevelWith Recorded.tell env form

end Expansion

namespace Store

variable {s t u : Store}

structure Numbers (s : Store) (uses : List MacroUse) (t : Store) : Prop where
  phase_eq : t.phase = s.phase
  uses_eq : t.uses = min (s.uses + uses.length) Expansion.maxUses
  stamps_eq : uses.map MacroUse.stamp =
    (List.range uses.length).map fun i => ((s.phase : Int), min (s.uses + i) Expansion.maxUses)

def SameCounters (s t : Store) : Prop := t.phase = s.phase ∧ t.uses = s.uses

theorem SameCounters.numbers (h : s.SameCounters t) (hs : s.uses ≤ Expansion.maxUses) :
    s.Numbers [] t where
  phase_eq := h.1
  uses_eq := by
    rw [h.2]
    exact (Nat.min_eq_left hs).symm
  stamps_eq := rfl

theorem Numbers.append {before after : List MacroUse} (h : s.Numbers before t)
    (k : t.Numbers after u) : s.Numbers (before ++ after) u where
  phase_eq := k.phase_eq.trans h.phase_eq
  uses_eq := by
    rw [k.uses_eq, h.uses_eq, List.length_append]
    omega
  stamps_eq := by
    rw [List.map_append, h.stamps_eq, k.stamps_eq, h.phase_eq, h.uses_eq, List.length_append,
      List.range_add, List.map_append, List.map_map]
    congr 1
    refine List.map_congr_left fun i _ => congrArg (Prod.mk _) ?_
    dsimp only
    omega

theorem Numbers.uses_le {uses : List MacroUse} (h : s.Numbers uses t) :
    t.uses ≤ Expansion.maxUses := h.uses_eq ▸ Nat.min_le_right _ _

end Store

def Records {α : Type} (x : Recorded α) (y : Action α) : Prop := ∀ s : Store,
  s.uses ≤ Expansion.maxUses → (x s).1 = y s ∧ s.Numbers (x s).2 (Action.after (y s))

namespace Records

variable {α β : Type}

theorem lift {y : Action α} (h : ∀ s : Store, s.SameCounters (Action.after (y s))) :
    Records (liftM y) y := fun s hs => ⟨rfl, (h s).numbers hs⟩

theorem pure (a : α) : Records (Pure.pure a) (Pure.pure a) := lift fun _ => ⟨rfl, rfl⟩

theorem inspect (look : Store → α) : Records (liftM (Action.inspect look)) (Action.inspect look) :=
  lift fun _ => ⟨rfl, rfl⟩

theorem throw (e : Error) :
    Records (liftM (MonadExcept.throw e : Action α)) (MonadExcept.throw e) :=
  lift fun _ => ⟨rfl, rfl⟩

theorem bind {x : Recorded α} {y : Action α} {f : α → Recorded β} {g : α → Action β}
    (h : Records x y) (hf : ∀ a, Records (f a) (g a)) : Records (x >>= f) (y >>= g) := by
  intro s hs
  obtain ⟨hxy, hnumbers⟩ := h s hs
  change (Recorded.bind x f s).1 = _ ∧ s.Numbers (Recorded.bind x f s).2 _
  unfold Recorded.bind
  rcases hx : x s with ⟨_ | _, uses⟩
  · rename_i a t
    rw [hx] at hxy hnumbers
    rw [Action.bind_ok hxy.symm]
    rw [← hxy] at hnumbers
    obtain ⟨hfg, hmore⟩ := hf a t hnumbers.uses_le
    exact ⟨hfg, hnumbers.append hmore⟩
  · rw [hx] at hxy hnumbers
    rw [Action.bind_error hxy.symm]
    rw [← hxy] at hnumbers
    exact ⟨rfl, hnumbers⟩

theorem mapM {f : α → Recorded β} {g : α → Action β} (h : ∀ a, Records (f a) (g a))
    (as : List α) : Records (as.mapM f) (as.mapM g) := by
  induction as with
  | nil => exact pure []
  | cons a as ih =>
    rw [List.mapM_cons, List.mapM_cons]
    exact (h a).bind fun b => ih.bind fun bs => pure (b :: bs)

end Records

def counting : SyntaxDiscipline where
  Holds _ := True
  Data _ _ := True
  Leads := Store.SameCounters
  refl _ := ⟨rfl, rfl⟩
  trans h k := ⟨k.1.trans h.1, k.2.trans h.2⟩
  data_leads _ _ := trivial
  constant _ _ _ _ := trivial
  name _ := trivial
  slot _ _ _ := trivial
  cons _ _ _ := ⟨⟨trivial, rfl, rfl⟩, trivial⟩
  vector _ _ := ⟨⟨trivial, rfl, rfl⟩, trivial⟩
  symbol _ _ := trivial
  install _ _ _ _ _ _ := ⟨trivial, rfl, rfl⟩
  constants _ _ _ _ := trivial

namespace Expansion

open Discipline SyntaxDiscipline

variable {env : Environment} {α : Type}

theorem records_kept {y : Action α} {Q : Store → Store → α → Prop}
    (h : ∀ s, counting.Keeps y s (Q s)) :
    Records (liftM y) y := .lift fun s => (h s).1.2

theorem records_listWithTail (items : List Value) (tail : Value) :
    Records (liftM (liftM (Build.listWithTail items tail) : Action Value))
      (liftM (Build.listWithTail items tail)) :=
  records_kept fun _ => keeps_listWithTail trivial (fun _ _ => trivial) trivial

theorem transcribeWith_tell (t : Transformer) (form : Value) (s : Store) :
    transcribeWith Recorded.tell env t form s =
      (match firstMatch? s form t.rules with
        | some (r, bs) => do
          let (phase, index) ← nextUse
          Recorded.tell ⟨t, env, phase, index⟩
          MacroUse.transcribe ⟨t, env, phase, index⟩ r.template bs
        | none => liftM (do throw (.noMatchingRule t.name (← Action.writeText form)) :
            Action Value) : Recorded Value) s := rfl

theorem records_transcribe (t : Transformer) (form : Value) :
    Records (transcribeWith Recorded.tell env t form) (transcribe env t form) := by
  intro s hs
  rw [transcribeWith_tell, transcribe_eq]
  cases hfound : firstMatch? s form t.rules with
  | none => exact ⟨rfl, Store.SameCounters.numbers ⟨rfl, rfl⟩ hs⟩
  | some found =>
    obtain ⟨r, bs⟩ := found
    obtain ⟨-, hbs⟩ := firstMatch?_mem hfound
    have huse : s.Numbers [⟨t, env, s.phase, s.uses⟩]
        { s with uses := min (s.uses + 1) maxUses } :=
      ⟨rfl, rfl, by simp [MacroUse.stamp, Nat.min_eq_left hs]⟩
    have hphase : (s.phase : Int) ≠ Symbol.userPhase := by
      rw [Symbol.userPhase]
      omega
    have hkeeps := keeps_transcribe (D := counting) (u := ⟨t, env, s.phase, s.uses⟩)
      (s := { s with uses := min (s.uses + 1) maxUses }) trivial hphase trivial r.template
      (fun _ _ => trivial)
      (SyntaxRules.matchPattern_data (D := counting.toDiscipline) (s := s) trivial trivial hbs)
    exact ⟨rfl, huse.append (hkeeps.1.2.numbers huse.uses_le)⟩

def RecordsForms (env : Environment) (room : Nat) : Prop :=
  ∀ form, Records (expandWith Recorded.tell env room form) (expand env room form)

def RecordsTemplates (env : Environment) (room : Nat) : Prop := ∀ fuel level v,
  Records (expandTemplateWith Recorded.tell env room fuel level v)
    (expandTemplate env room fuel level v)

theorem recordsForms_zero : RecordsForms env 0 := by
  intro form
  unfold expand expandWith
  cases form with
  | pair a => exact .throw _
  | _ => exact .pure _

theorem recordsForms_succ {room : Nat} (hforms : RecordsForms env room)
    (htemplates : RecordsTemplates env room) : RecordsForms env (room + 1) := by
  have hitems (before after : List Value) (tail : Value) :
      Records (after.mapM (expandWith Recorded.tell env room) >>= fun items =>
          liftM (liftM (Build.listWithTail (before ++ items) tail) : Action Value))
        (after.mapM (expand env room) >>= fun items =>
          liftM (Build.listWithTail (before ++ items) tail)) :=
    (Records.mapM hforms after).bind fun items => records_listWithTail _ tail
  intro form
  unfold expand expandWith
  cases form with
  | pair a =>
    refine (Records.inspect _).bind fun parts => ?_
    cases parts with
    | none => exact .pure _
    | some parts =>
      obtain ⟨items, tail⟩ := parts
      refine (Records.inspect _).bind fun head => ?_
      cases head with
      | use t => exact (records_transcribe t _).bind hforms
      | quote => exact .pure _
      | quasiquote =>
        rcases items with _ | ⟨keyword, _ | ⟨v, _ | ⟨w, more⟩⟩⟩
        · exact .pure _
        · exact .pure _
        · cases tail with
          | null =>
            refine (Records.inspect _).bind fun fuel => (htemplates fuel 1 _).bind fun v => ?_
            exact records_listWithTail _ _
          | _ => exact .pure _
        · exact .pure _
      | binding => exact hitems _ _ tail
      | defineSyntax =>
        have hkept (s : Store) : counting.Keeps (defineSyntax env (items.drop 1) tail) s _ :=
          keeps_defineSyntax trivial trivial (fun _ _ => trivial) fun _ _ _ _ => trivial
        exact (records_kept hkept).bind fun _ => .pure _
      | letSyntax keyword =>
        have hkept (s : Store) : counting.Keeps (letSyntax env keyword (items.drop 1) tail) s _ :=
          keeps_letSyntax trivial keyword trivial (fun _ _ => trivial)
            fun _ _ _ _ _ _ _ _ _ _ _ _ _ => trivial
        exact (records_kept hkept).bind hforms
      | other => exact hitems [] items tail
  | _ => exact .pure _

theorem recordsTemplates_of {room : Nat} (hforms : RecordsForms env (room - 1))
    (hless : 0 < room → RecordsTemplates env (room - 1)) : RecordsTemplates env room := by
  intro fuel
  induction fuel with
  | zero =>
    intro level v
    unfold expandTemplate expandTemplateWith
    exact .throw _
  | succ fuel ih =>
    have hbelow : ∀ level v,
        Records (expandTemplateWith Recorded.tell env (room - 1) fuel level v)
          (expandTemplate env (room - 1) fuel level v) := by
      by_cases hroom : 0 < room
      · exact hless hroom fuel
      · rwa [show room - 1 = room by omega]
    intro level v
    unfold expandTemplate expandTemplateWith
    refine (Records.inspect _).bind fun form => ?_
    cases form with
    | some form =>
      obtain ⟨keyword, operand⟩ := form
      dsimp only
      split_ifs
      · exact (hbelow _ operand).bind fun _ => records_listWithTail _ _
      · exact (hforms operand).bind fun _ => records_listWithTail _ _
      · exact (hbelow _ operand).bind fun _ => records_listWithTail _ _
    | none =>
      cases v with
      | pair a =>
        refine (Records.inspect _).bind fun p => (hbelow level p.car).bind fun car => ?_
        exact (ih level p.cdr).bind fun cdr => records_kept fun _ =>
          keeps_cons (D := counting.toDiscipline) trivial trivial trivial
      | vector a =>
        refine (Records.inspect _).bind fun items => (Records.mapM (hbelow level) _).bind ?_
        exact fun items => records_kept fun _ =>
          keeps_vector (D := counting.toDiscipline) trivial fun _ _ => trivial
      | _ => exact .pure _

theorem records_expand (env : Environment) (room : Nat) :
    RecordsForms env room ∧ RecordsTemplates env room := by
  induction room with
  | zero =>
    exact ⟨recordsForms_zero, recordsTemplates_of recordsForms_zero fun h => absurd h (by simp)⟩
  | succ room ih =>
    exact ⟨recordsForms_succ ih.1 ih.2, recordsTemplates_of ih.1 fun _ => ih.2⟩

def usesOf (env : Environment) (form : Value) (s : Store) : List MacroUse :=
  (expandToplevelRecorded env form s).2

theorem records_expandToplevel (env : Environment) (form : Value) (s : Store) :
    (expandToplevelRecorded env form s).1 = expandToplevel env form s ∧
      (started s).Numbers (usesOf env form s) (Action.after (expandToplevel env form s)) := by
  have hsettle (v : Value) : Records (liftM (Renaming.renameIntroduced v))
      (Renaming.renameIntroduced v) := records_kept fun _ =>
    keeps_renameIntroduced (D := counting) trivial trivial
  have hwhole := ((records_expand env (maxDepth + 1)).1 form).bind hsettle
  exact hwhole (started s) (Nat.zero_le _)

/-- The record is one of expansion itself, and the counter tells that no use is missing. -/
structure RecordsExpansion : Prop where
  result_eq : ∀ env form s, (expandToplevelRecorded env form s).1 = expandToplevel env form s
  numbers : ∀ env form s,
    (started s).Numbers (usesOf env form s) (Action.after (expandToplevel env form s))

theorem recordsExpansion : RecordsExpansion where
  result_eq env form s := (records_expandToplevel env form s).1
  numbers env form s := (records_expandToplevel env form s).2

theorem usesOf_nodup {form : Value} {env : Environment} {s : Store}
    (h : (usesOf env form s).length < maxUses) :
    ((usesOf env form s).map MacroUse.stamp).Nodup := by
  obtain ⟨-, -, -, hstamps⟩ := records_expandToplevel env form s
  rw [hstamps]
  refine List.Nodup.map_on (fun i hi j hj hij => ?_) List.nodup_range
  rw [List.mem_range] at hi hj
  simp only [started, Prod.mk.injEq, true_and] at hij
  omega

theorem phase_usesOf {form : Value} {env : Environment} {s : Store} {u : MacroUse}
    (hu : u ∈ usesOf env form s) : u.phase = s.phase + 1 := by
  obtain ⟨-, -, -, hstamps⟩ := records_expandToplevel env form s
  have hmem : u.stamp ∈ (usesOf env form s).map MacroUse.stamp := List.mem_map_of_mem hu
  rw [hstamps] at hmem
  obtain ⟨i, -, hi⟩ := List.mem_map.mp hmem
  exact (congrArg Prod.fst hi).symm

end Expansion

end HygienicScheme
