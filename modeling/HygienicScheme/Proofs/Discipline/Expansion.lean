import HygienicScheme.Proofs.Discipline.Basic
import HygienicScheme.Proofs.Expansion.Equations
import HygienicScheme.Proofs.SyntaxRules.Matching

/-!
# Expansion keeps every discipline

What a pattern matches are parts of the form, what a template brings itself are symbols and the
constants it was compiled with, and settling the stamps changes nothing but symbols. So expansion
keeps every discipline that allows for those symbols and for the transformers it installs.
-/
namespace HygienicScheme

def Symbol.Plain (x : Symbol) : Prop := x = .user x.name

instance (x : Symbol) : Decidable x.Plain := inferInstanceAs (Decidable (x = .user x.name))

def Symbol.Regular (x : Symbol) : Prop := x.Plain ∨ x.isStamped ∧ isCoreKeyword x.name = false

mutual

def Pattern.constants : Pattern → List Value
  | .constant v => [v]
  | .list items | .vector items => items.constants
  | .wildcard | .literal _ | .variable _ => []

def PatternSeq.constants : PatternSeq → List Value
  | .done => []
  | .rest p => p.constants
  | .item p more => p.constants ++ more.constants
  | .repeated p after => p.constants ++ after.constants

end

mutual

def Template.constants : Template → List Value
  | .constant v => [v]
  | .list items | .vector items => items.constants
  | .variable _ | .free _ => []

def TemplateSeq.constants : TemplateSeq → List Value
  | .done => []
  | .tail t => t.constants
  | .item t _ more => t.constants ++ more.constants

end

def Transformer.constants (m : Transformer) : List Value :=
  m.rules.flatMap fun r => r.pattern.constants ++ r.template.constants

namespace Expansion

inductive IsLocalBinding (s : Store) (v : Value) : Prop
  | intro {a : Address} {y : Symbol} {bindings : Value} {body items : List Value}
      (hform : s.Chain (.pair a) (.symbol y :: bindings :: body) .null)
      (hkeyword : y.name = "let-syntax" ∨ y.name = "letrec-syntax") (huser : y.isStamped = false)
      (hbindings : s.Chain bindings items .null) (hv : v ∈ items)

inductive Names (s : Store) (x : Symbol) (spec : Value) : Prop
  | definition {a : Address} {y : Symbol}
      (hform : s.Chain (.pair a) [.symbol y, .symbol x, spec] .null)
      (hkeyword : y.name = "define-syntax") (huser : y.isStamped = false)
  | binding {v : Value} (hv : IsLocalBinding s v) (hparts : s.Chain v [.symbol x, spec] .null)

structure Accepts (s : Store) (x : Symbol) (spec : Value) (m : Transformer) : Prop where
  allowed : isCoreKeyword x.name = false
  compiled : SyntaxRules.define s x.name spec = .ok m

end Expansion

structure SyntaxDiscipline extends Discipline where
  /-- What a name may be given a transformer from. -/
  Defined : Store → Symbol → Value → Prop := fun _ _ _ => True
  /-- The stamps of uses that were or are being transcribed, by phase and index. -/
  Stamp : Store → Int → Nat → Prop := fun _ _ _ => True
  stamp_leads : ∀ {s t phase index}, Leads s t → Stamp s phase index → Stamp t phase index := by
    exact fun _ _ => trivial
  symbol : ∀ {s x}, x.Regular → (x.isStamped → Stamp s x.phase x.useIndex) → Data s (.symbol x)
  install : ∀ {s x spec m} env, Scope env → Holds s → Defined s x spec →
    Expansion.Accepts s x spec m → (∀ v ∈ m.constants, Data s v) →
    Holds (s.install env m) ∧ Leads s (s.install env m)
  constants : ∀ {s f m}, Holds s → m ∈ (s.frameAt f).transformers →
    ∀ v ∈ m.2.constants, Data s v

structure ExpansionDiscipline extends SyntaxDiscipline where
  defined : ∀ {s x spec}, Expansion.Names s x spec → Defined s x spec := by exact fun _ => trivial
  use : ∀ {s}, Holds s →
    let t := { s with uses := min (s.uses + 1) Expansion.maxUses }
    (Holds t ∧ Leads s t) ∧ Stamp t s.phase s.uses
  phase : ∀ {s}, Holds s →
    let t := { s with phase := s.phase + 1, uses := 0 }
    Holds t ∧ Leads s t

inductive Binding.All (P : Value → Prop) : Binding → Prop
  | one {v : Value} (h : P v) : All P (.one v)
  | many {bs : List Binding} (h : ∀ b ∈ bs, All P b) : All P (.many bs)

def Bindings.All (P : Value → Prop) (bs : Bindings) : Prop := ∀ p ∈ bs, p.2.All P

section Bindings

variable {P Q : Value → Prop} {bs cs : Bindings}

theorem Binding.All.mono (hPQ : ∀ v, P v → Q v) {b : Binding} (h : b.All P) : b.All Q := by
  induction h with
  | one h => exact .one (hPQ _ h)
  | many _ ih => exact .many ih

theorem Binding.All.sequence {more : List Binding} (h : Binding.All P (.many more)) :
    ∀ b ∈ more, b.All P := by
  cases h with
  | many h => exact h

theorem Bindings.All.mono (hPQ : ∀ v, P v → Q v) (h : Bindings.All P bs) : Bindings.All Q bs :=
  fun p hp => (h p hp).mono hPQ

theorem Bindings.all_nil : Bindings.All P [] := by simp [Bindings.All]

theorem Bindings.All.append (h : Bindings.All P bs) (k : Bindings.All P cs) :
    Bindings.All P (bs ++ cs) := by
  intro p hp
  rcases List.mem_append.mp hp with hp | hp
  · exact h p hp
  · exact k p hp

theorem Bindings.All.lookup (h : Bindings.All P bs) {x : Symbol} {b : Binding}
    (hb : bs.lookup x = some b) : b.All P := h (x, b) (SyntaxRules.mem_of_lookup hb)

end Bindings

namespace SyntaxRules

open Discipline

variable {D : Discipline} {s : Store}

theorem gather_all {P : Value → Prop} (vars : List Symbol) {rows : List Bindings}
    (h : ∀ row ∈ rows, Bindings.All P row) : Bindings.All P (gather vars rows) := by
  intro p hp
  obtain ⟨x, -, rfl⟩ := List.mem_map.mp hp
  refine .many fun b hb => ?_
  obtain ⟨row, hrow, hlookup⟩ := List.mem_filterMap.mp hb
  exact (h row hrow).lookup hlookup

section Matching

variable (hs : D.Holds s)

include hs

theorem dropPairs_data {v : Value} (n : Nat) (hv : D.Data s v) : D.Data s (s.dropPairs n v) := by
  induction n generalizing v with
  | zero => exact hv
  | succ n ih =>
    rw [Store.dropPairs]
    cases v with
    | pair a => exact ih (cdr hs hv)
    | _ => exact ih null

mutual

theorem matchPattern_data {p : Pattern} {v : Value} {bs : Bindings} (hv : D.Data s v)
    (h : matchPattern s p v = .ok bs) : bs.All (D.Data s) := by
  match p with
  | .wildcard =>
    rw [matchPattern] at h
    cases h
    exact Bindings.all_nil
  | .variable x =>
    rw [matchPattern] at h
    cases h
    simpa [Bindings.All] using Binding.All.one hv
  | .literal x =>
    rw [matchPattern] at h
    split at h <;> cases h
    exact Bindings.all_nil
  | .constant c =>
    rw [matchPattern] at h
    split at h <;> cases h
    exact Bindings.all_nil
  | .list ps =>
    obtain ⟨-, vs, tail, hchain, h⟩ := matchPattern_list.mp h
    exact matchItems_data hv (chain hs hv hchain).1 h
  | .vector ps =>
    unfold matchPattern at h
    split at h
    · exact matchItems_data hv (item hs hv) h
    · cases h

theorem matchItems_data {ps : PatternSeq} {subject : Subject} {done : Nat} {vs : List Value}
    {bs : Bindings} (hwhole : D.Data s subject.whole) (hvs : ∀ v ∈ vs, D.Data s v)
    (h : matchItems s ps subject done vs = .ok bs) : bs.All (D.Data s) := by
  match ps with
  | .done =>
    obtain ⟨-, -, rfl⟩ := matchItems_done.mp h
    exact Bindings.all_nil
  | .rest p =>
    rw [matchItems] at h
    exact matchPattern_data (dropPairs_data hs done hwhole) h
  | .item p more =>
    obtain ⟨-, v, vs, b, cs, rfl, hb, hcs, rfl⟩ := matchItems_item.mp h
    obtain ⟨hv, hmore⟩ := List.forall_mem_cons.mp hvs
    exact (matchPattern_data hv hb).append (matchItems_data hwhole hmore hcs)
  | .repeated p after =>
    obtain ⟨-, -, rows, cs, hrows, hcs, rfl⟩ := matchItems_repeated.mp h
    have hall : ∀ row ∈ rows, Bindings.All (D.Data s) row := by
      intro row hrow
      obtain ⟨v, hv, hmatch⟩ := exists_of_mem_right hrows hrow
      exact matchPattern_data (hvs v (List.mem_of_mem_take hv)) hmatch
    exact (gather_all p.vars hall).append
      (matchItems_data hwhole (fun v hv => hvs v (List.mem_of_mem_drop hv)) hcs)

end

end Matching

section Compiling

variable {c : Scope}

mutual

theorem PatternOf.constants_data (hs : D.Holds c.store) :
    ∀ {n v seen p seen'}, PatternOf c n v seen p seen' → D.Data c.store v →
      ∀ w ∈ p.constants, D.Data c.store w
  | _, _, _, _, _, .wildcard _, _ | _, _, _, _, _, .literal _, _ | _, _, _, _, _, .binder _, _ => by
    simp [Pattern.constants]
  | _, _, _, _, _, .null, _ => by simp [Pattern.constants, PatternSeq.constants]
  | _, _, _, _, _, .constant _ _, hv => by simpa [Pattern.constants] using hv
  | _, _, _, _, _, .list hchain h, hv =>
    h.constants_data hs (chain hs hv hchain).1 (chain hs hv hchain).2
  | _, _, _, _, _, .vector h, hv => h.constants_data hs (item hs hv) null

theorem PatternItemsOf.constants_data (hs : D.Holds c.store) :
    ∀ {n tail repeats items seen ps seen'},
    PatternItemsOf c n tail repeats items seen ps seen' → (∀ v ∈ items, D.Data c.store v) →
    D.Data c.store tail → ∀ w ∈ ps.constants, D.Data c.store w
  | _, _, _, _, _, _, _, .done, _, _ => by simp [PatternSeq.constants]
  | _, _, _, _, _, _, _, .rest _ h, _, htail => h.constants_data hs htail
  | _, _, _, _, _, _, _, .item _ _ h hmore, hitems, htail => by
    obtain ⟨hv, hitems⟩ := List.forall_mem_cons.mp hitems
    exact List.forall_mem_append.mpr
      ⟨h.constants_data hs hv, hmore.constants_data hs hitems htail⟩
  | _, _, _, _, _, _, _, .repeated _ _ h hmore, hitems, htail => by
    obtain ⟨hv, hitems⟩ := List.forall_mem_cons.mp hitems
    exact List.forall_mem_append.mpr ⟨h.constants_data hs hv,
      hmore.constants_data hs (List.forall_mem_cons.mp hitems).2 htail⟩

end

mutual

theorem TemplateOf.constants_data {depths : Depths} (hs : D.Holds c.store) :
    ∀ {escaped n v t}, TemplateOf c depths escaped n v t → D.Data c.store v →
      ∀ w ∈ t.constants, D.Data c.store w
  | _, _, _, _, .use _ _, _ | _, _, _, _, .free _, _ => by simp [Template.constants]
  | _, _, _, _, .constant _, hv => by simpa [Template.constants] using hv
  | _, _, _, _, .escape hchain _ h, hv => h.constants_data hs ((chain hs hv hchain).1 _ (by simp))
  | _, _, _, _, .list hchain h, hv =>
    h.constants_data hs (chain hs hv hchain).1 (chain hs hv hchain).2
  | _, _, _, _, .vector h, hv => h.constants_data hs (item hs hv) null

theorem TemplateItemsOf.constants_data {depths : Depths} (hs : D.Holds c.store) :
    ∀ {escaped n tail items ts},
    TemplateItemsOf c depths escaped n tail items ts → (∀ v ∈ items, D.Data c.store v) →
    D.Data c.store tail → ∀ w ∈ ts.constants, D.Data c.store w
  | _, _, _, _, _, .done, _, _ => by simp [TemplateSeq.constants]
  | _, _, _, _, _, .tail _ h, _, htail => h.constants_data hs htail
  | _, _, _, _, _, .item _ _ h hmore, hitems, htail => by
    obtain ⟨hv, hitems⟩ := List.forall_mem_cons.mp hitems
    exact List.forall_mem_append.mpr ⟨h.constants_data hs hv,
      hmore.constants_data hs (fun w hw => hitems w (List.mem_of_mem_drop hw)) htail⟩

end

end Compiling

theorem define_constants {name : String} {spec : Value} {m : Transformer} (hs : D.Holds s)
    (hspec : D.Data s spec) (h : define s name spec = .ok m) : ∀ v ∈ m.constants, D.Data s v := by
  obtain ⟨clauses, hlist, hrules⟩ := define_rules h
  intro w hw
  obtain ⟨r, hr, hw⟩ := List.mem_flatMap.mp hw
  obtain ⟨number, v, hv, hrule⟩ := hrules r hr
  obtain ⟨p, t, hparts, hp, ht⟩ := ruleOf hrule
  have hv := properList hs hspec hlist v hv
  have hparts := properList hs hv hparts
  obtain ⟨a, head, items, tail, ps, rfl, hchain, hps, hitems⟩ := rulePatternOf hp
  obtain ⟨hall, htail⟩ := chain hs (hparts _ List.mem_cons_self) hchain
  rcases List.mem_append.mp hw with hw | hw
  · dsimp only at hps
    rw [hps] at hw
    exact hitems.constants_data hs (List.forall_mem_cons.mp hall).2 htail w
      (by simpa [Pattern.constants, PatternSeq.constants] using hw)
  · exact ht.constants_data hs (hparts t (by simp)) w hw

end SyntaxRules

namespace SyntaxDiscipline

open Discipline

variable {D : SyntaxDiscipline} {s : Store} {v tail : Value} {items : List Value}
  {env : Environment} {bs : Bindings}

theorem unstamped (x : Symbol) : D.Data s (.symbol x.unstamped) := D.symbol (.inl rfl) nofun

section Transcribing

variable {u : MacroUse}

theorem stamp_introduce (hstamp : D.Stamp s u.phase u.index) (x : Symbol)
    (h : (u.introduce s x).isStamped) :
    D.Stamp s (u.introduce s x).phase (u.introduce s x).useIndex := by
  unfold MacroUse.introduce at h ⊢
  split
  · rename_i hx
    rw [if_pos hx] at h
    cases h
  · exact hstamp

theorem regular_introduce (hu : u.phase ≠ Symbol.userPhase) (s : Store) (x : Symbol) :
    (u.introduce s x).Regular := by
  unfold MacroUse.introduce
  split
  · exact .inl rfl
  · rename_i hx
    have hcore : isCoreKeyword x.name = false := by
      simp only [Store.isKeyword, Bool.or_eq_true, not_or, Bool.not_eq_true] at hx
      exact hx.2.1
    exact .inr ⟨by simpa [Symbol.isStamped, Symbol.stamp] using hu, hcore⟩

theorem drivers_all {P : Value → Prop} (vars : List Symbol) (h : Bindings.All P bs) :
    ∀ d ∈ MacroUse.drivers vars bs, ∀ b ∈ d.2, b.All P := by
  intro d hd b hb
  obtain ⟨x, -, hx⟩ := List.mem_filterMap.mp hd
  split at hx
  · rename_i sequence hlookup
    cases hx
    exact (h.lookup hlookup).sequence b hb
  · cases hx

theorem rounds_all {P : Value → Prop} (n : Nat) {ds : List (Symbol × List Binding)}
    (h : ∀ d ∈ ds, ∀ b ∈ d.2, b.All P) : ∀ row ∈ MacroUse.rounds n ds, Bindings.All P row := by
  induction n generalizing ds with
  | zero => simp [MacroUse.rounds]
  | succ n ih =>
    intro row hrow
    rw [MacroUse.rounds] at hrow
    rcases List.mem_cons.mp hrow with rfl | hrow
    · intro p hp
      obtain ⟨⟨x, sequence⟩, hd, hp⟩ := List.mem_filterMap.mp hp
      obtain ⟨b, hb, rfl⟩ := Option.map_eq_some_iff.mp hp
      exact h _ hd b (List.mem_of_mem_head? hb)
    · refine ih (fun d hd b hb => ?_) row hrow
      obtain ⟨⟨x, sequence⟩, hmem, rfl⟩ := List.mem_map.mp hd
      have htail : b ∈ sequence.tail := hb
      exact h (x, sequence) hmem b (List.mem_of_mem_tail htail)

abbrev Bound (D : SyntaxDiscipline) (s : Store) (bs : Bindings) : Prop := bs.All (D.Data s)

theorem bound_leads {t : Store} (hst : D.Leads s t) (h : D.Bound s bs) : D.Bound t bs :=
  h.mono fun _ hv => D.data_leads hst hv

theorem keeps_repeated (hs : D.Holds s) {vars : List Symbol} {emit : Bindings → Action Value}
    (hemit : ∀ {t bs}, D.Holds t → D.Leads s t → D.Bound t bs → D.Keeps (emit bs) t D.Data)
    (ellipses : Nat) (hbs : D.Bound s bs) :
    D.Keeps (u.repeated vars emit ellipses bs) s fun t vs => ∀ v ∈ vs, D.Data t v := by
  suffices h : ∀ {t bs}, D.Holds t → D.Leads s t → D.Bound t bs →
      D.Keeps (u.repeated vars emit ellipses bs) t fun t vs => ∀ v ∈ vs, D.Data t v from
    h hs (D.refl s) hbs
  induction ellipses with
  | zero =>
    exact fun ht hst hbs => (hemit ht hst hbs).bind fun v _ hu _ hv => .pure hu (by simpa using hv)
  | succ ellipses ih =>
    intro t bs ht hst hbs
    unfold MacroUse.repeated
    have hdrivers := drivers_all vars hbs
    generalize MacroUse.drivers vars bs = ds at hdrivers ⊢
    cases ds with
    | nil => exact .throw ht
    | cons d more =>
      obtain ⟨first, sequence⟩ := d
      dsimp only
      split
      · exact .throw ht
      · refine Keeps.bind (.mapM (R := fun t vs => ∀ v ∈ vs, D.Data t v) ht
          (fun hst h => all_leads hst h) fun row hrow w hw htw => ?_)
          fun vss w hw _ h => .pure hw ?_
        · exact ih hw (D.trans hst htw)
            (bound_leads htw ((rounds_all _ hdrivers row hrow).append hbs))
        · intro v hv
          obtain ⟨vs, hvs, hv⟩ := List.mem_flatten.mp hv
          exact h vs hvs v hv

mutual

theorem keeps_transcribe {s : Store} {bs : Bindings} (hs : D.Holds s)
    (hu : u.phase ≠ Symbol.userPhase) (hstamp : D.Stamp s u.phase u.index) (t : Template)
    (ht : ∀ v ∈ t.constants, D.Data s v) (hbs : D.Bound s bs) :
    D.Keeps (u.transcribe t bs) s D.Data := by
  match t with
  | .variable x =>
    unfold MacroUse.transcribe
    cases hlookup : bs.lookup x with
    | none => exact .throw hs
    | some b =>
      cases hbs.lookup hlookup with
      | one hv => exact .pure hs hv
      | many => exact .throw hs
  | .free x =>
    unfold MacroUse.transcribe
    exact .inspect_bind (.pure hs (D.symbol (regular_introduce hu s x)
      (stamp_introduce hstamp x)))
  | .constant c =>
    unfold MacroUse.transcribe
    exact .pure hs (ht c (by simp [Template.constants]))
  | .list ts =>
    unfold MacroUse.transcribe
    exact (keeps_transcribeItems hs hu hstamp ts ht hbs).bind fun _ _ ht _ h =>
      keeps_listWithTail ht h.1 h.2
  | .vector ts =>
    unfold MacroUse.transcribe
    exact (keeps_transcribeItems hs hu hstamp ts ht hbs).bind fun _ _ ht _ h =>
      keeps_vector ht (by simpa using h.1)

theorem keeps_transcribeItems {s : Store} {bs : Bindings} (hs : D.Holds s)
    (hu : u.phase ≠ Symbol.userPhase) (hstamp : D.Stamp s u.phase u.index) (ts : TemplateSeq)
    (ht : ∀ v ∈ ts.constants, D.Data s v) (hbs : D.Bound s bs) : D.Keeps (u.transcribeItems ts bs) s
      fun t parts => (∀ v ∈ parts.1, D.Data t v) ∧ D.Data t parts.2 := by
  match ts with
  | .done =>
    unfold MacroUse.transcribeItems
    exact .pure hs ⟨by simp, null⟩
  | .tail t =>
    unfold MacroUse.transcribeItems
    exact (keeps_transcribe hs hu hstamp t ht hbs).bind fun _ _ ht _ hv => .pure ht ⟨by simp, hv⟩
  | .item t ellipses more =>
    unfold MacroUse.transcribeItems
    obtain ⟨hfirst, hmore⟩ := List.forall_mem_append.mp ht
    refine (keeps_repeated hs (fun hw hsw hbs => keeps_transcribe hw hu
      (D.stamp_leads hsw hstamp) t (all_leads hsw hfirst) hbs) ellipses hbs).bind
        fun vs w hw hsw hvs => ?_
    refine (keeps_transcribeItems hw hu (D.stamp_leads hsw hstamp) more (all_leads hsw hmore)
      (bound_leads hsw hbs)).bind ?_
    exact fun parts x hx hwx h => .pure hx
      ⟨List.forall_mem_append.mpr ⟨all_leads hwx hvs, h.1⟩, h.2⟩

end

end Transcribing

section Settling

theorem keeps_rebuild {f : Value → Action Value} (hs : D.Holds s)
    (hf : ∀ {t v}, D.Holds t → D.Data t v → D.Keeps (f v) t D.Data)
    (hitems : ∀ v ∈ items, D.Data s v) (htail : D.Data s tail) :
    D.Keeps (Renaming.rebuild f items tail) s D.Data := by
  refine (Keeps.mapM hs (R := D.Data) (fun hst hv => D.data_leads hst hv) fun v hv t ht hst =>
    hf ht (D.data_leads hst (hitems v hv))).bind fun rs t ht hst hrs => ?_
  exact (hf ht (D.data_leads hst htail)).bind fun last u hu htu hlast =>
    keeps_listWithTail hu (all_leads htu hrs) hlast

theorem keeps_items {f : Value → Action Value} (hs : D.Holds s)
    (hf : ∀ {t v}, D.Holds t → D.Data t v → D.Keeps (f v) t D.Data)
    (hitems : ∀ v ∈ items, D.Data s v) :
    D.Keeps (items.mapM f >>= fun rs => liftM (Build.vector rs.toArray)) s D.Data :=
  (Keeps.mapM hs (R := D.Data) (fun hst hv => D.data_leads hst hv) fun v hv _ ht hst =>
    hf ht (D.data_leads hst (hitems v hv))).bind fun _ _ ht _ hrs =>
      keeps_vector ht (by simpa using hrs)

theorem keeps_strip (depth : Nat) (hs : D.Holds s) (hv : D.Data s v) :
    D.Keeps (Renaming.strip depth v) s D.Data := by
  induction depth generalizing s v with
  | zero => exact .throw hs
  | succ depth ih =>
    unfold Renaming.strip
    refine .get_bind ((Keeps.ended hs (Q := fun t _ => t = s) fun _ _ => rfl).bind ?_)
    rintro stamped t ht hst rfl
    split
    · cases v with
      | symbol x => exact .pure hs (D.unstamped x)
      | pair a =>
        dsimp only
        cases hsplit : t.splitList? (.pair a) with
        | none => exact .pure hs hv
        | some parts =>
          obtain ⟨hitems, htail⟩ := chain hs hv (Store.splitList?_eq_some.mp hsplit)
          exact keeps_rebuild hs ih hitems htail
      | vector a => exact keeps_items hs ih (item hs hv)
      | _ => exact .pure hs hv
    · exact .pure hs hv

section

variable {bound : List Symbol} {depth : Nat}
  (hcode : ∀ {s v}, D.Holds s → D.Data s v → D.Keeps (Renaming.code bound depth v) s D.Data)
  (htemplate : ∀ {s v} level, D.Holds s → D.Data s v →
    D.Keeps (Renaming.template bound depth level v) s D.Data)

include hcode htemplate

theorem keeps_code (hs : D.Holds s) (hv : D.Data s v) :
    D.Keeps (Renaming.code bound (depth + 1) v) s D.Data := by
  cases v with
  | symbol x =>
    unfold Renaming.code
    dsimp only
    split
    · exact .pure hs (D.unstamped x)
    · exact .pure hs hv
  | pair a =>
    cases hsplit : s.splitList? (.pair a) with
    | none =>
      unfold Renaming.code
      refine .get_bind ?_
      rw [hsplit]
      exact .pure hs hv
    | some parts =>
      obtain ⟨items, tail⟩ := parts
      obtain ⟨hitems, htail⟩ := chain hs hv (Store.splitList?_eq_some.mp hsplit)
      refine .of_eq (Renaming.code_pair hsplit) ?_
      cases hform : Renaming.Form.of items tail with
      | quote data =>
        obtain ⟨head, rfl⟩ := Renaming.Form.of_quote hform
        refine (keeps_rebuild hs (keeps_strip depth) (List.forall_mem_cons.mp hitems).2
          htail).bind fun data t ht _ hdata => ?_
        exact keeps_cons ht (D.name "quote") hdata
      | quasiquote w =>
        obtain ⟨head, rfl⟩ := Renaming.Form.of_quasiquote hform
        refine (htemplate 1 hs (hitems w (by simp))).bind fun w t ht _ hw => ?_
        exact keeps_list ht (by simpa using ⟨D.name "quasiquote", hw⟩)
      | definition => exact .pure hs hv
      | other => exact keeps_rebuild hs hcode hitems htail
  | vector a =>
    unfold Renaming.code
    exact keeps_strip depth hs hv
  | _ =>
    unfold Renaming.code
    exact .pure hs hv

theorem keeps_template (level : Nat) (hs : D.Holds s) (hv : D.Data s v) :
    D.Keeps (Renaming.template bound (depth + 1) level v) s D.Data := by
  cases hform : s.quasiForm? v with
  | some form =>
    obtain ⟨keyword, operand⟩ := form
    obtain ⟨a, head, rfl, -, hchain⟩ := Store.quasiForm?_chain hform
    have hoperand := (chain hs hv hchain).1 operand (by simp)
    -- All three kinds of form are put together again in the same way.
    have hlist : ∀ {t v}, D.Holds t → D.Data t v →
        D.Keeps (liftM (Build.list [.name keyword.name, v])) t D.Data :=
      fun ht hv => keeps_list ht (by simpa using ⟨D.name _, hv⟩)
    refine .of_eq (Renaming.template_form hform) ?_
    split_ifs
    · exact (htemplate _ hs hoperand).bind fun _ _ ht _ hw => hlist ht hw
    · exact (hcode hs hoperand).bind fun _ _ ht _ hw => hlist ht hw
    · exact (htemplate _ hs hoperand).bind fun _ _ ht _ hw => hlist ht hw
  | none =>
    cases v with
    | pair a =>
      refine .of_eq (Renaming.template_pair hform) ?_
      refine (htemplate level hs (car hs hv)).bind fun car t ht hst hcar => ?_
      refine (htemplate level ht (D.data_leads hst (cdr hs hv))).bind ?_
      exact fun cdr u hu htu hcdr => keeps_cons hu (D.data_leads htu hcar) hcdr
    | vector a =>
      refine .of_eq Renaming.template_vector ?_
      exact keeps_items hs (htemplate level) (item hs hv)
    | _ => exact .of_eq (Renaming.template_leaf (by simp) (by simp)) (keeps_strip depth hs hv)

end

/-- Code and templates call each other with one depth less, so both are kept together. -/
theorem keeps_code_template (bound : List Symbol) (depth : Nat) :
    (∀ {s v}, D.Holds s → D.Data s v → D.Keeps (Renaming.code bound depth v) s D.Data) ∧
      ∀ {s v} level, D.Holds s → D.Data s v →
        D.Keeps (Renaming.template bound depth level v) s D.Data := by
  induction depth with
  | zero =>
    constructor
    · intro s v hs _
      unfold Renaming.code
      exact .throw hs
    · intro s v level hs _
      unfold Renaming.template
      exact .throw hs
  | succ depth ih =>
    obtain ⟨hcode, htemplate⟩ := ih
    exact ⟨fun hs hv => keeps_code hcode htemplate hs hv,
      fun level hs hv => keeps_template hcode htemplate level hs hv⟩

theorem keeps_renameIntroduced (hs : D.Holds s) (hv : D.Data s v) :
    D.Keeps (Renaming.renameIntroduced v) s D.Data := by
  unfold Renaming.renameIntroduced
  refine .get_bind ((Keeps.ended hs (Q := fun t _ => t = s) fun _ _ => rfl).bind ?_)
  rintro stamped t ht hst rfl
  split
  · refine (Keeps.ended hs (Q := fun u _ => u = t) fun _ _ => rfl).bind ?_
    rintro bound u hu htu rfl
    exact (keeps_code_template bound _).1 hs hv
  · exact .pure hs hv

end Settling

section Defining

variable (D) in
def DefinedBy (s : Store) (v : Value) : Prop :=
  ∀ t : Store, t.pairs = s.pairs → ∀ x spec, t.Chain v [.symbol x, spec] .null → D.Defined t x spec

variable (henv : D.Scope env)

include henv

theorem keeps_defineSyntax (hs : D.Holds s) (hitems : ∀ v ∈ items, D.Data s v)
    (hdefined : ∀ x spec, items = [.symbol x, spec] → tail = .null → D.Defined s x spec) :
    D.Keeps (Expansion.defineSyntax env items tail) s fun t _ => t.pairs = s.pairs := by
  unfold Expansion.defineSyntax
  split
  · rename_i name spec
    split
    · exact .throw hs
    · rename_i hallowed
      refine .inspect_bind ?_
      cases hdefine : SyntaxRules.define s name.name spec with
      | error e => exact .throw hs
      | ok m =>
        have hconstants := SyntaxRules.define_constants hs (hitems spec (by simp)) hdefine
        have haccepts : Expansion.Accepts s name spec m :=
          ⟨Bool.eq_false_iff.mpr hallowed, hdefine⟩
        exact .change (D.install env henv hs (hdefined name spec rfl rfl) haccepts hconstants) rfl
  · exact .throw hs
  · exact .throw hs

theorem keeps_installAll (keyword : String) (hs : D.Holds s) (hitems : ∀ v ∈ items, D.Data s v)
    (hdefined : ∀ v ∈ items, D.DefinedBy s v) :
    D.Keeps (Expansion.installAll env keyword items) s fun _ _ => True := by
  induction items generalizing s with
  | nil => exact .pure hs trivial
  | cons v more ih =>
    obtain ⟨hv, hmore⟩ := List.forall_mem_cons.mp hitems
    obtain ⟨hfirst, hdefined⟩ := List.forall_mem_cons.mp hdefined
    refine .inspect_bind ?_
    cases hlist : s.properList? v with
    | none => exact .throw hs
    | some parts =>
      refine (keeps_defineSyntax henv hs (properList hs hv hlist) ?_).bind
        fun _ t ht hst hpairs => ih ht (all_leads hst hmore) fun v hv u hu =>
          hdefined v hv u (hu.trans hpairs)
      rintro x spec rfl -
      exact hfirst s rfl x spec (Store.properList?_eq_some.mp hlist)

theorem keeps_letSyntax (keyword : String) (hs : D.Holds s) (hitems : ∀ v ∈ items, D.Data s v)
    (hdefined : ∀ bindings body parts, items = bindings :: body → tail = .null →
      s.Chain bindings parts .null → ∀ v ∈ parts, D.DefinedBy s v) :
    D.Keeps (Expansion.letSyntax env keyword items tail) s D.Data := by
  unfold Expansion.letSyntax
  split
  · exact .throw hs
  · rename_i bindings body
    obtain ⟨hbindings, hbody⟩ := List.forall_mem_cons.mp hitems
    split
    · exact .throw hs
    · rename_i hbody'
      obtain rfl : tail = .null := by cases tail <;> simp_all [Value.isNull]
      refine .inspect_bind ?_
      cases hlist : s.properList? bindings with
      | none => exact .throw hs
      | some parts =>
        have hparts := hdefined bindings body parts rfl rfl (Store.properList?_eq_some.mp hlist)
        refine (keeps_installAll henv keyword hs (properList hs hbindings hlist) hparts).bind
          fun _ t ht hst _ => ?_
        have hthunk : ∀ v ∈ .name "lambda" :: .null :: body, D.Data t v := by
          simp only [List.forall_mem_cons]
          exact ⟨D.name _, null, all_leads hst hbody⟩
        exact (keeps_list ht hthunk).bind fun _ _ hu _ hv => keeps_list hu (by simpa using hv)

end Defining

end SyntaxDiscipline

namespace ExpansionDiscipline

open Discipline SyntaxDiscipline

variable {D : ExpansionDiscipline} {s : Store} {v tail : Value} {items : List Value}
  {env : Environment}

theorem keeps_nextUse (hs : D.Holds s) :
    D.Keeps Expansion.nextUse s fun t use => D.Stamp t use.1 use.2 := by
  refine ⟨(D.use hs).1, fun use t h => ?_⟩
  cases h
  exact (D.use hs).2

theorem keeps_use {m : Transformer} {name : String} (hs : D.Holds s)
    (hm : s.transformer? name env.chain = some m) (hv : D.Data s v) :
    D.Keeps (Expansion.transcribe env m v) s D.Data := by
  refine .inspect_bind ?_
  cases hfound : Expansion.firstMatch? s v m.rules with
  | none => exact .throw hs
  | some found =>
    obtain ⟨r, bs⟩ := found
    obtain ⟨hr, hbs⟩ := Expansion.firstMatch?_mem hfound
    refine (keeps_nextUse hs).bind fun use t ht hst hstamp => ?_
    obtain ⟨f, -, hmem⟩ := Store.transformer?_mem hm
    have hconstants : ∀ w ∈ r.template.constants, D.Data s w := fun w hw =>
      D.constants hs hmem w (List.mem_flatMap.mpr ⟨r, hr, List.mem_append_right _ hw⟩)
    have hphase : (use.1 : Int) ≠ Symbol.userPhase := by
      rw [Symbol.userPhase]
      omega
    exact keeps_transcribe (u := ⟨m, env, use.1, use.2⟩) ht hphase hstamp _
      (all_leads hst hconstants) (bound_leads hst (SyntaxRules.matchPattern_data hs hv hbs))

variable (D) in
def Expands (env : Environment) (room : Nat) : Prop :=
  ∀ {s v}, D.Holds s → D.Data s v → D.Keeps (Expansion.expand env room v) s D.Data

variable (D) in
def ExpandsTemplates (env : Environment) (room : Nat) : Prop :=
  ∀ {s v} (fuel level : Nat), D.Holds s → D.Data s v →
    D.Keeps (Expansion.expandTemplate env room fuel level v) s D.Data

theorem expands_zero : D.Expands env 0 := by
  intro s v hs hv
  cases v with
  | pair a =>
    rw [Expansion.expand_zero]
    exact .throw hs
  | _ =>
    rw [Expansion.expand_leaf env _ (by simp)]
    exact .pure hs hv

theorem expands_succ {room : Nat} (henv : D.Scope env) (hforms : D.Expands env room)
    (htemplates : D.ExpandsTemplates env room) : D.Expands env (room + 1) := by
  intro s v hs hv
  cases v with
  | pair a =>
    cases hsplit : s.splitList? (.pair a) with
    | none =>
      exact .of_eq (Expansion.expand_circular hsplit) (.pure hs hv)
    | some parts =>
      obtain ⟨items, tail⟩ := parts
      obtain ⟨hitems, htail⟩ := chain hs hv (Store.splitList?_eq_some.mp hsplit)
      -- The items before are left alone, and those after are expanded.
      have hexpandItems : ∀ before after : List Value, (∀ v ∈ before, D.Data s v) →
          (∀ v ∈ after, D.Data s v) →
          D.Keeps (do
            let rs ← after.mapM fun v => Expansion.expand env room v
            Build.listWithTail (before ++ rs) tail) s D.Data := by
        intro before after hbefore hafter
        refine (Keeps.mapM hs (R := D.Data) (fun hst hv => D.data_leads hst hv)
          fun v hv t ht hst => hforms ht (D.data_leads hst (hafter v hv))).bind ?_
        exact fun rs t ht hst hrs => keeps_listWithTail ht
          (List.forall_mem_append.mpr ⟨all_leads hst hbefore, hrs⟩) (D.data_leads hst htail)
      refine .of_eq (Expansion.expand_list hsplit) ?_
      cases hhead : Expansion.headOf env items s with
      | use m =>
        obtain ⟨x, -, -, hx⟩ := Expansion.headOf_use hhead
        exact (keeps_use hs hx hv).bind fun _ _ ht _ hw => hforms ht hw
      | quote => exact .pure hs hv
      | quasiquote =>
        dsimp only
        split
        · rename_i keyword w
          simp only [List.forall_mem_cons] at hitems
          refine (htemplates _ 1 hs hitems.2.1).bind fun w t ht hst hw => ?_
          exact keeps_list ht (by simpa using ⟨D.data_leads hst hitems.1, hw⟩)
        · exact .pure hs hv
      | binding =>
        exact hexpandItems _ _ (fun v hv => hitems v (List.mem_of_mem_take hv))
          fun v hv => hitems v (List.mem_of_mem_drop hv)
      | defineSyntax =>
        obtain ⟨y, more, rfl, hkeyword, huser⟩ := Expansion.headOf_defineSyntax hhead
        refine (keeps_defineSyntax henv hs (List.forall_mem_cons.mp hitems).2 ?_).bind
          fun _ _ ht hst _ => .pure ht (D.data_leads hst hv)
        rintro x spec rfl rfl
        exact D.defined (.definition (Store.splitList?_eq_some.mp hsplit) hkeyword huser)
      | letSyntax keyword =>
        obtain ⟨y, more, rfl, rfl, hkeyword, huser⟩ := Expansion.headOf_letSyntax hhead
        refine (keeps_letSyntax henv y.name hs (List.forall_mem_cons.mp hitems).2 ?_).bind
          fun _ _ ht _ hw => hforms ht hw
        rintro bindings body parts rfl rfl hbindings v hv t ht x spec hchain
        have hform := (Store.splitList?_eq_some.mp hsplit).of_pairs_eq ht
        exact D.defined (.binding ⟨hform, hkeyword, huser, hbindings.of_pairs_eq ht, hv⟩ hchain)
      | other => exact hexpandItems [] items (by simp) hitems
  | _ =>
    rw [Expansion.expand_leaf env _ (by simp)]
    exact .pure hs hv

theorem expandsTemplates_of {room : Nat} (hforms : D.Expands env (room - 1))
    (hless : 0 < room → D.ExpandsTemplates env (room - 1)) : D.ExpandsTemplates env room := by
  intro s v fuel
  induction fuel generalizing s v with
  | zero =>
    intro level hs _
    rw [Expansion.expandTemplate_zero]
    exact .throw hs
  | succ fuel ih =>
    intro level hs hv
    have hbelow : ∀ {s v} level, D.Holds s → D.Data s v →
        D.Keeps (Expansion.expandTemplate env (room - 1) fuel level v) s D.Data := by
      by_cases hroom : 0 < room
      · exact hless hroom fuel
      · rw [show room - 1 = room by omega]
        exact ih
    cases hform : s.quasiForm? v with
    | some form =>
      obtain ⟨keyword, operand⟩ := form
      obtain ⟨a, head, rfl, -, hchain⟩ := Store.quasiForm?_chain hform
      have hoperand := (chain hs hv hchain).1 operand (by simp)
      have hlist : ∀ {t v}, D.Holds t → D.Data t v →
          D.Keeps (liftM (Build.list [.name keyword.name, v])) t D.Data :=
        fun ht hv => keeps_list ht (by simpa using ⟨D.name _, hv⟩)
      refine .of_eq (Expansion.expandTemplate_form hform) ?_
      split_ifs
      · exact (hbelow _ hs hoperand).bind fun _ _ ht _ hw => hlist ht hw
      · exact (hforms hs hoperand).bind fun _ _ ht _ hw => hlist ht hw
      · exact (hbelow _ hs hoperand).bind fun _ _ ht _ hw => hlist ht hw
    | none =>
      cases v with
      | pair a =>
        refine .of_eq (Expansion.expandTemplate_pair hform) ?_
        refine (hbelow level hs (car hs hv)).bind fun car t ht hst hcar => ?_
        refine (ih level ht (D.data_leads hst (cdr hs hv))).bind ?_
        exact fun cdr u hu htu hcdr => keeps_cons hu (D.data_leads htu hcar) hcdr
      | vector a =>
        refine .of_eq Expansion.expandTemplate_vector ?_
        exact keeps_items hs (hbelow level) (item hs hv)
      | _ =>
        rw [Expansion.expandTemplate_leaf (by simp) (by simp)]
        exact .pure hs hv

theorem expands (henv : D.Scope env) (room : Nat) :
    D.Expands env room ∧ D.ExpandsTemplates env room := by
  induction room with
  | zero => exact ⟨expands_zero, expandsTemplates_of expands_zero fun h => absurd h (by simp)⟩
  | succ room ih => exact ⟨expands_succ henv ih.1 ih.2, expandsTemplates_of ih.1 fun _ => ih.2⟩

/-- Before its stamps are settled an expanded form is data, and what comes of it is whatever
settling makes of data. -/
theorem keeps_settled {Q : Store → Value → Prop} (henv : D.Scope env) (hs : D.Holds s)
    (hv : D.Data s v)
    (hsettle : ∀ t w, D.Holds t → D.Data t w → D.Keeps (Renaming.renameIntroduced w) t Q) :
    D.Keeps (Expansion.expandToplevel env v) s Q :=
  Keeps.bind (Q := fun t _ => D.Data t v) (.change (D.phase hs)
    (D.data_leads (D.phase hs).2 hv)) fun _ _ ht _ hv =>
      ((expands henv _).1 ht hv).bind fun w u hu _ hw => hsettle u w hu hw

theorem keeps_expandToplevel (henv : D.Scope env) (hs : D.Holds s) (hv : D.Data s v) :
    D.Keeps (Expansion.expandToplevel env v) s D.Data :=
  keeps_settled henv hs hv fun _ _ => keeps_renameIntroduced

end ExpansionDiscipline

end HygienicScheme
