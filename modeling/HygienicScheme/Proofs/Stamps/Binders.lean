import HygienicScheme.Proofs.Stamps.Rewriting

/-!
# Binders that are found and kept

Two walks decide over the stamps of a form. The first looks for the identifiers that the form binds;
it goes around quoted data, but into a quasiquoted template as into any other list. The second takes
stamps off; it knows what a template unquotes, and it takes what a form binds names with for code.
Where the first walk is `Unmistaken` the two agree: what it takes for bound is bound in a code
position, and the second walk leaves it there. In a form that is `Sober` the second walk comes to
all the code there is.
-/
namespace HygienicScheme

variable {s t : Store} {v w r tail last : Value} {items rs vs : List Value} {n : Nat} {x : Symbol}
  {bound : List Symbol} {a : Address}

namespace Renaming

theorem mem_stampedSymbols : x ∈ stampedSymbols vs ↔ .symbol x ∈ vs ∧ x.isStamped := by
  rw [stampedSymbols, List.mem_filterMap]
  constructor
  · rintro ⟨v, hv, hx⟩
    cases v with
    | symbol y =>
      dsimp only at hx
      split at hx <;> cases hx
      exact ⟨hv, ‹_›⟩
    | _ => cases hx
  · rintro ⟨hx, hstamped⟩
    exact ⟨_, hx, by dsimp only; rw [if_pos hstamped]⟩

theorem mem_of_mapM {α β : Type} {f : α → Option (List β)} {as : List α} {found : List (List β)}
    (h : as.mapM f = some found) : (∀ a ∈ as, ∃ bs, f a = some bs) ∧
      ∀ b, b ∈ found.flatten ↔ ∃ a ∈ as, ∃ bs, f a = some bs ∧ b ∈ bs := by
  induction as generalizing found with
  | nil =>
    cases h
    simp
  | cons a as ih =>
    rw [List.mapM_cons] at h
    obtain ⟨bs, hbs, h⟩ := Option.bind_eq_some_iff.mp h
    obtain ⟨more, hmore, h⟩ := Option.bind_eq_some_iff.mp h
    cases h
    obtain ⟨hall, hmem⟩ := ih hmore
    refine ⟨List.forall_mem_cons.mpr ⟨⟨bs, hbs⟩, hall⟩, fun b => ?_⟩
    rw [List.flatten_cons, List.mem_append, hmem]
    simp [hbs]

/-- What is found in a list is found in its items, but for the target of a form that binds. -/
theorem binders_pair (hsplit : s.splitList? (.pair a) = some (items, tail))
    (h : binders s (n + 1) (.pair a) = some bound) :
    (Head.ofItems items ∈ [.quote, .defineSyntax] ∧ bound = []) ∨
    (Head.ofItems items ∈ [.lambda, .define] ∧ ∃ body,
      (items.drop 2).mapM (binders s n) = some body ∧
        bound = (items.drop 1).head?.elim [] (formals s) ++ body.flatten) ∨
    (Head.ofItems items ∈ [.quasiquote, .other] ∧ ∃ found,
      (items ++ [tail]).mapM (binders s n) = some found ∧ bound = found.flatten) := by
  rw [binders, hsplit] at h
  dsimp only at h
  cases hhead : Head.ofItems items with
  | quote | defineSyntax =>
    rw [hhead] at h
    cases h
    exact .inl ⟨by simp, rfl⟩
  | lambda | define =>
    rw [hhead] at h
    obtain ⟨body, hbody, h⟩ := Option.bind_eq_some_iff.mp h
    cases h
    exact .inr (.inl ⟨by simp, body, hbody, rfl⟩)
  | quasiquote | other =>
    rw [hhead] at h
    obtain ⟨found, hfound, h⟩ := Option.bind_eq_some_iff.mp h
    cases h
    exact .inr (.inr ⟨by simp, found, hfound, rfl⟩)

def Target (items : List Value) (w : Value) : Prop :=
  (Head.ofItems items = .lambda ∨ Head.ofItems items = .define) ∧
    ∃ head body, items = head :: w :: body

def searched (items : List Value) : List Value :=
  match Head.ofItems items with
  | .lambda | .define => items.drop 2
  | .quasiquote | .other => items
  | .quote | .defineSyntax => []

theorem mem_of_searched (h : w ∈ searched items) : w ∈ items := by
  unfold searched at h
  split at h
  · exact List.mem_of_mem_drop h
  · exact List.mem_of_mem_drop h
  · exact h
  · exact h
  · cases h
  · cases h

theorem searched_forall₂ {R : Value → Value → Prop} (hof : Head.ofItems rs = Head.ofItems items)
    (h : List.Forall₂ R items rs) : List.Forall₂ R (searched items) (searched rs) := by
  unfold searched
  rw [hof]
  split
  · exact List.forall₂_drop 2 h
  · exact List.forall₂_drop 2 h
  · exact h
  · exact h
  · exact .nil
  · exact .nil

theorem binders_leaf (hv : ∀ a, v ≠ .pair a) (h : binders s n v = some bound) : bound = [] := by
  cases n with
  | zero => cases h
  | succ n =>
    cases v with
    | pair a => exact absurd rfl (hv a)
    | _ =>
      cases h
      rfl

theorem mem_target (hof : Head.ofItems items = .lambda ∨ Head.ofItems items = .define) :
    x ∈ (items.drop 1).head?.elim [] (formals s) ↔ ∃ w, Target items w ∧ x ∈ formals s w := by
  match items with
  | [] | [_] => simp [Target]
  | head :: w :: body => simp [Target, hof]

theorem mem_of_binders (hchain : s.Chain (.pair a) items tail)
    (h : binders s (n + 1) (.pair a) = some bound) :
    (∀ w ∈ searched items, ∃ found, binders s n w = some found) ∧
      ∀ x, x ∈ bound ↔ (∃ w, Target items w ∧ x ∈ formals s w) ∨
        ∃ w ∈ searched items, ∃ found, binders s n w = some found ∧ x ∈ found := by
  rcases binders_pair (Store.splitList?_eq_some.mpr hchain) h with
    ⟨hof, rfl⟩ | ⟨hof, body, hbody, rfl⟩ | ⟨hof, found, hfound, rfl⟩
  · have hof : Head.ofItems items = .quote ∨ Head.ofItems items = .defineSyntax := by
      simpa using hof
    rcases hof with hof | hof <;> simp [searched, Target, hof]
  · have hof : Head.ofItems items = .lambda ∨ Head.ofItems items = .define := by simpa using hof
    have hsearched : searched items = items.drop 2 := by
      rcases hof with hof | hof <;> simp [searched, hof]
    obtain ⟨hall, hmem⟩ := mem_of_mapM hbody
    rw [hsearched]
    refine ⟨hall, fun x => ?_⟩
    rw [List.mem_append, mem_target hof, hmem]
  · have hof : Head.ofItems items = .quasiquote ∨ Head.ofItems items = .other := by simpa using hof
    have hsearched : searched items = items := by
      rcases hof with hof | hof <;> simp [searched, hof]
    obtain ⟨hall, hmem⟩ := mem_of_mapM hfound
    rw [hsearched]
    refine ⟨fun w hw => hall w (List.mem_append_left _ hw), fun x => ?_⟩
    rw [hmem]
    constructor
    · rintro ⟨w, hw, bs, hbs, hx⟩
      rcases List.mem_append.mp hw with hw | hw
      · exact .inr ⟨w, hw, bs, hbs, hx⟩
      · obtain rfl := List.mem_singleton.mp hw
        rw [binders_leaf hchain.tail_ne_pair hbs] at hx
        cases hx
    · rintro (⟨w, ⟨hbinds, -⟩, -⟩ | ⟨w, hw, bs, hbs, hx⟩)
      · rcases hof with hof | hof <;> simp [hof] at hbinds
      · exact ⟨w, List.mem_append_left _ hw, bs, hbs, hx⟩

end Renaming

namespace Store

open Renaming (Form Head Target searched formals)

/-- Somewhere in a code position the symbol stands among the parameters of a `lambda` form or in
what a `define` form defines. -/
inductive BindsIn (s : Store) (x : Symbol) : Role → Value → Prop
  | target {a : Address} {items : List Value} {tail w : Value}
      (hchain : s.Chain (.pair a) items tail) (hw : Target items w) (hx : x ∈ formals s w) :
      BindsIn s x .code (.pair a)
  | item {a : Address} {items : List Value} {tail w : Value}
      (hchain : s.Chain (.pair a) items tail) (hform : Form.of items tail = .other)
      (hw : w ∈ searched items) (h : BindsIn s x .code w) : BindsIn s x .code (.pair a)
  | quasiquote {a : Address} {items : List Value} {tail w : Value}
      (hchain : s.Chain (.pair a) items tail) (hform : Form.of items tail = .quasiquote w)
      (h : BindsIn s x (.template 1) w) : BindsIn s x .code (.pair a)
  | form {v w : Value} {keyword : QuasiKeyword} {level : Nat}
      (hform : s.quasiForm? v = some (keyword, w)) (h : BindsIn s x (.within keyword level) w) :
      BindsIn s x (.template level) v
  | car {a : Address} {level : Nat} (hform : s.quasiForm? (.pair a) = none)
      (h : BindsIn s x (.template level) (s.pairAt a).car) : BindsIn s x (.template level) (.pair a)
  | cdr {a : Address} {level : Nat} (hform : s.quasiForm? (.pair a) = none)
      (h : BindsIn s x (.template level) (s.pairAt a).cdr) : BindsIn s x (.template level) (.pair a)
  | vectorItem {a : Address} {level : Nat} {w : Value} (hw : w ∈ (s.vectorAt a).toList)
      (h : BindsIn s x (.template level) w) : BindsIn s x (.template level) (.vector a)

inductive ItemIn (s : Store) : Role → Value → Role → Value → Prop
  | item {a : Address} {items : List Value} {tail w : Value}
      (hchain : s.Chain (.pair a) items tail) (hform : Form.of items tail = .other)
      (hw : w ∈ items) : ItemIn s .code (.pair a) .code w
  | quasiquote {a : Address} {items : List Value} {tail w : Value}
      (hchain : s.Chain (.pair a) items tail) (hform : Form.of items tail = .quasiquote w) :
      ItemIn s .code (.pair a) (.template 1) w
  | form {v w : Value} {keyword : QuasiKeyword} {level : Nat}
      (hform : s.quasiForm? v = some (keyword, w)) :
      ItemIn s (.template level) v (.within keyword level) w
  | car {a : Address} {level : Nat} (hform : s.quasiForm? (.pair a) = none) :
      ItemIn s (.template level) (.pair a) (.template level) (s.pairAt a).car
  | cdr {a : Address} {level : Nat} {role : Role} {w : Value}
      (hform : s.quasiForm? (.pair a) = none)
      (h : ItemIn s (.template level) (s.pairAt a).cdr role w) :
      ItemIn s (.template level) (.pair a) role w

/-- The search for binders in the first value comes to the second one. -/
inductive Comes (s : Store) : Role → Value → Role → Value → Prop
  | here {role : Role} {v : Value} : Comes s role v role v
  | item {role inner role' : Role} {v w u tail : Value} {items : List Value}
      (hitem : s.ItemIn role v inner w) (hchain : s.Chain v items tail) (hw : w ∈ searched items)
      (h : Comes s inner w role' u) : Comes s role v role' u

/-- What the search takes for a form that binds names is one. -/
structure Unmistaken (s : Store) (role : Role) (v : Value) : Prop where
  /-- What a form in a code position binds names with is no quotation. -/
  code : ∀ u items tail w ws last, s.Comes role v .code u → s.Chain u items tail →
    Target items w → s.Chain w ws last → Form.of ws last = .other
  /-- No list in a template looks as if it bound stamped symbols. -/
  template : ∀ level u items tail w, s.Comes role v (.template level) u → s.Chain u items tail →
    Target items w → formals s w = []

theorem Unmistaken.item {role inner : Role} (h : s.Unmistaken role v)
    (hitem : s.ItemIn role v inner w) (hchain : s.Chain v items tail) (hw : w ∈ searched items) :
    s.Unmistaken inner w where
  code u items tail w ws last hcomes :=
    h.code u items tail w ws last (.item hitem hchain hw hcomes)
  template level u items tail w hcomes :=
    h.template level u items tail w (.item hitem hchain hw hcomes)

theorem ItemIn.bindsIn {role inner : Role} (h : s.ItemIn role v inner w)
    (hw : role = .code → ∀ items tail, s.Chain v items tail → w ∈ searched items)
    (hx : s.BindsIn x inner w) : s.BindsIn x role v := by
  induction h with
  | item hchain hform => exact .item hchain hform (hw rfl _ _ hchain) hx
  | quasiquote hchain hform => exact .quasiquote hchain hform hx
  | form hform => exact .form hform hx
  | car hform => exact .car hform hx
  | cdr hform _ ih => exact .cdr hform (ih nofun hx)

namespace Unmistaken

theorem of_items {role : Role} (hchain : s.Chain v items tail)
    (hcode : role = .code → ∀ w ws last, Target items w → s.Chain w ws last →
      Form.of ws last = .other)
    (htemplate : role ≠ .code → ∀ w, Target items w → formals s w = [])
    (hitems : ∀ inner w, s.ItemIn role v inner w → w ∈ searched items → s.Unmistaken inner w) :
    s.Unmistaken role v where
  code u items' tail' w ws last hcomes hchain' hw := by
    cases hcomes with
    | here =>
      obtain ⟨rfl, rfl⟩ := hchain.unique hchain'
      exact hcode rfl w ws last hw
    | item hitem hchain'' hmem hcomes =>
      obtain ⟨rfl, rfl⟩ := hchain.unique hchain''
      exact (hitems _ _ hitem hmem).code u items' tail' w ws last hcomes hchain' hw
  template level u items' tail' w hcomes hchain' hw := by
    cases hcomes with
    | here =>
      obtain ⟨rfl, rfl⟩ := hchain.unique hchain'
      exact htemplate (by simp) w hw
    | item hitem hchain'' hmem hcomes =>
      obtain ⟨rfl, rfl⟩ := hchain.unique hchain''
      exact (hitems _ _ hitem hmem).template level u items' tail' w hcomes hchain' hw

theorem atom {role : Role} (hv : ∀ a, v ≠ .pair a) : s.Unmistaken role v :=
  of_items (.tail hv) (fun _ w _ _ hw => absurd hw (by simp [Target]))
    (fun _ w hw => absurd hw (by simp [Target])) fun _ _ _ hw =>
      absurd (Renaming.mem_of_searched hw) (by simp)

theorem row {role : Role} (hchain : s.Chain v items tail) (hof : Head.ofItems items = .other)
    (hatoms : ∀ w ∈ items, ∀ a, w ≠ .pair a) : s.Unmistaken role v := by
  have htarget : ∀ w, ¬Target items w := by simp [Target, hof]
  exact of_items hchain (fun _ w _ _ hw => absurd hw (htarget w))
    (fun _ w hw => absurd hw (htarget w)) fun _ w _ hw =>
      .atom (hatoms w (Renaming.mem_of_searched hw))

theorem list (hchain : s.Chain (.pair a) items tail) (hform : Form.of items tail = .other)
    (htarget : ∀ w ws last, Target items w → s.Chain w ws last → Form.of ws last = .other)
    (hitems : ∀ w ∈ searched items, s.Unmistaken .code w) : s.Unmistaken .code (.pair a) := by
  refine of_items hchain (fun _ => htarget) (fun h => absurd rfl h) fun inner w hitem hw => ?_
  cases hitem with
  | item => exact hitems w hw
  | quasiquote hchain' hform' =>
    obtain ⟨rfl, rfl⟩ := hchain.unique hchain'
    cases hform.symm.trans hform'

theorem quasiquote (hchain : s.Chain (.pair a) items tail)
    (hform : Form.of items tail = .quasiquote w) (h : s.Unmistaken (.template 1) w) :
    s.Unmistaken .code (.pair a) := by
  have hquasiquote := (Form.eq_quasiquote.mp hform).1
  refine of_items hchain (fun _ u _ _ hu => ?_) (fun h => absurd rfl h) fun inner u hitem _ => ?_
  · obtain ⟨hbinds | hbinds, -⟩ := hu <;> cases hquasiquote.symm.trans hbinds
  · cases hitem with
    | item hchain' hform' =>
      obtain ⟨rfl, rfl⟩ := hchain.unique hchain'
      cases hform.symm.trans hform'
    | quasiquote hchain' hform' =>
      obtain ⟨rfl, rfl⟩ := hchain.unique hchain'
      cases hform.symm.trans hform'
      exact h

end Unmistaken

/-- No transformer is defined in a code position. -/
inductive Sober (s : Store) : Role → Value → Prop
  | atom {v : Value} (hv : ∀ a, v ≠ .pair a) : Sober s .code v
  | quote {a : Address} {items data : List Value} {tail : Value}
      (hchain : s.Chain (.pair a) items tail) (hform : Form.of items tail = .quote data) :
      Sober s .code (.pair a)
  | quasiquote {a : Address} {items : List Value} {tail w : Value}
      (hchain : s.Chain (.pair a) items tail) (hform : Form.of items tail = .quasiquote w)
      (h : Sober s (.template 1) w) : Sober s .code (.pair a)
  | list {a : Address} {items : List Value} {tail : Value} (hchain : s.Chain (.pair a) items tail)
      (hform : Form.of items tail = .other) (hitems : ∀ w ∈ items, Sober s .code w) :
      Sober s .code (.pair a)
  | leaf {v : Value} {level : Nat} (hp : ∀ a, v ≠ .pair a) (hv : ∀ a, v ≠ .vector a) :
      Sober s (.template level) v
  | form {v w : Value} {keyword : QuasiKeyword} {level : Nat}
      (hform : s.quasiForm? v = some (keyword, w)) (h : Sober s (.within keyword level) w) :
      Sober s (.template level) v
  | pair {a : Address} {level : Nat} (hform : s.quasiForm? (.pair a) = none)
      (hcar : Sober s (.template level) (s.pairAt a).car)
      (hcdr : Sober s (.template level) (s.pairAt a).cdr) : Sober s (.template level) (.pair a)
  | vector {a : Address} {level : Nat}
      (hitems : ∀ v ∈ (s.vectorAt a).toList, Sober s (.template level) v) :
      Sober s (.template level) (.vector a)

namespace Sober

theorem not_definition (h : s.Sober .code (.pair a)) (hchain : s.Chain (.pair a) items tail) :
    Form.of items tail ≠ .definition := by
  cases h with
  | atom hp => exact absurd rfl (hp a)
  | quote hchain' hform | quasiquote hchain' hform | list hchain' hform =>
    obtain ⟨rfl, rfl⟩ := hchain.unique hchain'
    simp [hform]

theorem operand (h : s.Sober .code (.pair a)) (hchain : s.Chain (.pair a) items tail)
    (hform : Form.of items tail = .quasiquote w) : s.Sober (.template 1) w := by
  cases h with
  | atom hp => exact absurd rfl (hp a)
  | quasiquote hchain' hform' h =>
    obtain ⟨rfl, rfl⟩ := hchain.unique hchain'
    cases hform.symm.trans hform'
    exact h
  | quote hchain' hform' | list hchain' hform' =>
    obtain ⟨rfl, rfl⟩ := hchain.unique hchain'
    cases hform.symm.trans hform'

theorem item (h : s.Sober .code (.pair a)) (hchain : s.Chain (.pair a) items tail)
    (hform : Form.of items tail = .other) (hw : w ∈ items) : s.Sober .code w := by
  cases h with
  | atom hp => exact absurd rfl (hp a)
  | list hchain' _ hitems =>
    obtain ⟨rfl, rfl⟩ := hchain.unique hchain'
    exact hitems w hw
  | quote hchain' hform' | quasiquote hchain' hform' =>
    obtain ⟨rfl, rfl⟩ := hchain.unique hchain'
    cases hform.symm.trans hform'

theorem inner {keyword : QuasiKeyword} {level : Nat} (h : s.Sober (.template level) v)
    (hform : s.quasiForm? v = some (keyword, w)) : s.Sober (.within keyword level) w := by
  cases h with
  | form hform' h =>
    cases hform.symm.trans hform'
    exact h
  | leaf hp =>
    obtain ⟨a, rfl⟩ := quasiForm?_pair hform
    exact absurd rfl (hp a)
  | pair hform' => cases hform.symm.trans hform'
  | vector => cases hform

theorem parts {level : Nat} (h : s.Sober (.template level) (.pair a))
    (hform : s.quasiForm? (.pair a) = none) :
    s.Sober (.template level) (s.pairAt a).car ∧ s.Sober (.template level) (s.pairAt a).cdr := by
  cases h with
  | pair _ hcar hcdr => exact ⟨hcar, hcdr⟩
  | leaf hp => exact absurd rfl (hp a)
  | form hform' => cases hform.symm.trans hform'

theorem vectorItem {level : Nat} (h : s.Sober (.template level) (.vector a)) :
    ∀ v ∈ (s.vectorAt a).toList, s.Sober (.template level) v := by
  cases h with
  | vector hitems => exact hitems
  | leaf _ hv => exact absurd rfl (hv a)
  | form hform => cases hform

end Sober

end Store

namespace Renaming

def Placed (bound : List Symbol) (s t : Store) (role : Role) (v w w' : Value) : Prop :=
  (∀ a, w ≠ .pair a) ∨ ∃ inner, s.ItemIn role v inner w ∧ Rewritten bound s t inner w w'

/-- In a template the items of a list stand one by one, and after a comma what is unquoted. -/
theorem template_row {level : Nat} (hv : s.Tree v)
    (hr : Rewritten bound s t (.template level) v r) (hchain : s.Chain v items tail)
    (hchain' : t.Chain r rs last) :
    List.Forall₂ (Placed bound s t (.template level) v) items rs := by
  induction hchain generalizing r rs with
  | tail hp =>
    cases hchain' with
    | tail => exact .nil
    | pair =>
      obtain ⟨a, rfl, -⟩ := (hr.sheds hv).pair_lt
      exact absurd rfl (hp a)
  | @pair a items tail hcdr ih =>
    cases hr with
    | leaf hp => exact absurd rfl (hp a)
    | form hform hchain hspine h =>
      obtain ⟨hitems, -⟩ := (Store.Chain.pair hcdr).unique hchain
      obtain ⟨rfl, -⟩ := hchain'.unique (hspine.chain nofun)
      rw [hitems]
      exact .cons (.inl nofun) (.cons (.inr ⟨_, .form hform, h⟩) .nil)
    | pair hform hb hcar hmore =>
      cases hchain' with
      | tail hp => exact absurd rfl (hp _)
      | pair hchain' =>
        refine .cons (.inr ⟨_, .car hform, hcar⟩) ((ih hv.cdr hmore hchain').imp ?_)
        rintro w w' (hw | ⟨inner, hitem, hw⟩)
        · exact .inl hw
        · exact .inr ⟨inner, .cdr hform hitem, hw⟩

theorem code_row (hv : s.Tree (.pair a)) (hr : Rewritten bound s t .code (.pair a) r)
    (hchain : s.Chain (.pair a) items tail) (hchain' : t.Chain r rs last)
    (hof : Head.ofItems rs = Head.ofItems items) :
    List.Forall₂ (Placed bound s t .code (.pair a)) (searched items) (searched rs) := by
  cases hform : Form.of items tail with
  | quote data =>
    have hquote := (Form.eq_quote.mp hform).1
    have hquote' := hof.trans hquote
    simp [searched, hquote, hquote']
  | quasiquote w =>
    obtain ⟨rfl, w', hspine, hw⟩ := hr.quasiquotation hchain hform
    obtain ⟨rfl, rfl⟩ := hchain'.unique (hspine.chain nofun)
    exact .cons (.inl nofun) (.cons (.inr ⟨_, .quasiquote hchain hform, hw⟩) .nil)
  | definition =>
    have hdefinition := Form.eq_definition.mp hform
    have hdefinition' := hof.trans hdefinition
    simp [searched, hdefinition, hdefinition']
  | other =>
    obtain ⟨rs', last', hspine, hrs, hlast⟩ := hr.list hchain hform
    obtain ⟨rfl, rfl⟩ := hchain'.unique
      (hspine.chain ((hlast.sheds (hv.tail hchain)).ne_pair hchain.tail_ne_pair))
    have hall := (List.forall₂_and_left _ _).mpr ⟨fun w hw => hw, searched_forall₂ hof hrs⟩
    exact hall.imp fun w w' ⟨hw, hw'⟩ => .inr ⟨_, .item hchain hform (mem_of_searched hw), hw'⟩

theorem mem_formals (hchain : s.Chain (.pair a) items tail) :
    x ∈ formals s (.pair a) ↔ .symbol x ∈ tail :: items ∧ x.isStamped := by
  rw [formals, Store.splitList?_eq_some.mpr hchain, mem_stampedSymbols, List.mem_append,
    List.mem_singleton, List.mem_cons, or_comm]

theorem formals_kept {w' : Value} (hv : s.Tree w) (hr : Rewritten bound s t .code w w')
    (hother : ∀ ws last, s.Chain w ws last → Form.of ws last = .other) (hx : x ∈ formals s w)
    (hbound : x ∈ bound) : x ∈ formals t w' := by
  cases w with
  | symbol y =>
    have hy := (mem_stampedSymbols.mp hx).1
    obtain rfl : x = y := by simpa using hy
    rwa [hr.kept hbound]
  | pair b =>
    obtain ⟨ws, last, hchain⟩ := hv.chain
    obtain ⟨rs, last', hspine, hrs, hlast⟩ := hr.list hchain (hother ws last hchain)
    obtain ⟨c, rfl⟩ := (hr.sheds hv).exists_pair
    have hchain' := hspine.chain ((hlast.sheds (hv.tail hchain)).ne_pair hchain.tail_ne_pair)
    obtain ⟨hmem, hstamped⟩ := (mem_formals hchain).mp hx
    refine (mem_formals hchain').mpr ⟨?_, hstamped⟩
    obtain ⟨y, hy, hkept⟩ := SyntaxRules.exists_of_mem_right (List.Forall₂.cons hlast hrs).flip hmem
    rwa [hkept.kept hbound] at hy
  | _ => cases hx

theorem target_kept {role : Role} (hv : s.Tree (.pair a)) (hfound : s.Unmistaken role (.pair a))
    (hr : Rewritten bound s t role (.pair a) r) (hchain : s.Chain (.pair a) items tail)
    (hchain' : t.Chain r rs last) (hof : Head.ofItems rs = Head.ofItems items)
    (hw : Target items w) (hx : x ∈ formals s w) (hbound : x ∈ bound) :
    s.BindsIn x role (.pair a) ∧ ∃ w', Target rs w' ∧ x ∈ formals t w' := by
  cases role with
  | operands => cases hr
  | template level =>
    rw [hfound.template level _ items tail w .here hchain hw] at hx
    cases hx
  | code =>
    refine ⟨.target hchain hw hx, ?_⟩
    have hform : Form.of items tail = .other := by
      obtain ⟨hbinds | hbinds, -⟩ := hw <;> simp [Form.of, hbinds]
    obtain ⟨rs', last', hspine, hrs, hlast⟩ := hr.list hchain hform
    obtain ⟨rfl, rfl⟩ := hchain'.unique
      (hspine.chain ((hlast.sheds (hv.tail hchain)).ne_pair hchain.tail_ne_pair))
    have hother := fun ws last => hfound.code _ items tail w ws last .here hchain hw
    obtain ⟨hbinds, head, body, rfl⟩ := hw
    obtain ⟨head', _, -, hrest, rfl⟩ := List.forall₂_cons_left_iff.mp hrs
    obtain ⟨w', body', hw', -, rfl⟩ := List.forall₂_cons_left_iff.mp hrest
    exact ⟨w', ⟨hof ▸ hbinds, head', body', rfl⟩,
      formals_kept (hv.items hchain w (by simp)) hw' hother hx hbound⟩

/-- What the search takes for bound is bound in a code position and still found there in what the
pass makes of the form. -/
theorem bindsIn_of_binders {role : Role} (hv : s.Form v) (hfound : s.Unmistaken role v)
    (hr : Rewritten bound s t role v r) {found : List Symbol} (h : binders s n v = some found)
    (hx : x ∈ found) (hbound : x ∈ bound) : s.BindsIn x role v ∧
      ∀ m found', binders t m r = some found' → x ∈ found' := by
  induction n generalizing role v r found with
  | zero => cases h
  | succ n ih =>
    by_cases hpair : ∃ a, v = .pair a
    · obtain ⟨a, rfl⟩ := hpair
      obtain ⟨items, tail, hchain⟩ := hv.tree.chain
      obtain ⟨hitems, -⟩ := hv.chain hchain
      obtain ⟨rs, last, hchain', hrs, -⟩ := (hr.sheds hv.tree).chain hchain
      obtain ⟨b, rfl⟩ := (hr.sheds hv.tree).exists_pair
      have hof := Store.Sheds.ofItems_eq hrs hitems
      rcases ((mem_of_binders hchain h).2 x).mp hx with ⟨w, hw, hx⟩ | ⟨w, hw, bs, hbs, hx⟩
      · obtain ⟨hbinds, w', hw', hx'⟩ :=
          target_kept hv.tree hfound hr hchain hchain' hof hw hx hbound
        refine ⟨hbinds, fun m found' hm => ?_⟩
        cases m with
        | zero => cases hm
        | succ m => exact ((mem_of_binders hchain' hm).2 x).mpr (.inl ⟨w', hw', hx'⟩)
      · have hrow : List.Forall₂ (Placed bound s t role (.pair a)) (searched items)
            (searched rs) := by
          cases role with
          | code => exact code_row hv.tree hr hchain hchain' hof
          | template level => exact searched_forall₂ hof (template_row hv.tree hr hchain hchain')
          | operands => cases hr
        obtain ⟨w', hw', hplaced⟩ := SyntaxRules.exists_of_mem_right hrow.flip hw
        rcases hplaced with hatom | ⟨inner, hitem, hr'⟩
        · rw [binders_leaf hatom hbs] at hx
          cases hx
        · obtain ⟨hbinds, hfound'⟩ := ih (hitems w (mem_of_searched hw))
            (hfound.item hitem hchain hw) hr' hbs hx
          refine ⟨hitem.bindsIn (fun _ items' tail' h => ?_) hbinds, fun m found' hm => ?_⟩
          · obtain ⟨rfl, rfl⟩ := hchain.unique h
            exact hw
          · cases m with
            | zero => cases hm
            | succ m =>
              obtain ⟨hall, hmem⟩ := mem_of_binders hchain' hm
              obtain ⟨bs', hbs'⟩ := hall w' hw'
              exact (hmem x).mpr (.inr ⟨w', hw', bs', hbs', hfound' m bs' hbs'⟩)
    · rw [binders_leaf (not_exists.mp hpair) h] at hx
      cases hx

end Renaming

end HygienicScheme
