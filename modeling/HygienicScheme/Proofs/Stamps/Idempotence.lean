import HygienicScheme.Proofs.Expansion.Trees
import HygienicScheme.Proofs.Stamps.Binders
import HygienicScheme.Proofs.Store.Copies

/-!
# Settling stamps twice

When the stamps of a sober form are settled and no binder is mistaken there, those that are left
stand in code positions and are bound in such positions. So the search finds them again, and to
settle the stamps once more makes a copy.
-/
namespace HygienicScheme

open Renaming (Form Target)

variable {s t u : Store} {v w r tail last : Value} {items rs : List Value} {P Q : Symbol → Prop}
  {role : Role} {bound : List Symbol} {x : Symbol}

namespace Store

/-- Stamped symbols stand only in code positions, and those that do have the property. -/
inductive Confined (s : Store) (P : Symbol → Prop) : Role → Value → Prop
  | symbol {x : Symbol} (h : x.isStamped → P x) : Confined s P .code (.symbol x)
  | atom {v : Value} (hp : ∀ a, v ≠ .pair a) (h : s.Clean v) : Confined s P .code v
  | quote {a : Address} {items data : List Value} {tail : Value}
      (hchain : s.Chain (.pair a) items tail) (hform : Form.of items tail = .quote data)
      (h : s.Clean (.pair a)) : Confined s P .code (.pair a)
  | quasiquote {a : Address} {items : List Value} {tail w : Value}
      (hchain : s.Chain (.pair a) items tail) (hform : Form.of items tail = .quasiquote w)
      (h : Confined s P (.template 1) w) : Confined s P .code (.pair a)
  | list {a : Address} {items : List Value} {tail : Value} (hchain : s.Chain (.pair a) items tail)
      (hform : Form.of items tail = .other) (hitems : ∀ w ∈ items, Confined s P .code w)
      (htail : Confined s P .code tail) : Confined s P .code (.pair a)
  | leaf {v : Value} {level : Nat} (hp : ∀ a, v ≠ .pair a) (hv : ∀ a, v ≠ .vector a)
      (h : s.Clean v) : Confined s P (.template level) v
  | form {v w : Value} {keyword : QuasiKeyword} {level : Nat}
      (hform : s.quasiForm? v = some (keyword, w)) (h : Confined s P (.within keyword level) w) :
      Confined s P (.template level) v
  | pair {a : Address} {level : Nat} (hform : s.quasiForm? (.pair a) = none)
      (hcar : Confined s P (.template level) (s.pairAt a).car)
      (hcdr : Confined s P (.template level) (s.pairAt a).cdr) :
      Confined s P (.template level) (.pair a)
  | vector {a : Address} {level : Nat}
      (hitems : ∀ v ∈ (s.vectorAt a).toList, Confined s P (.template level) v) :
      Confined s P (.template level) (.vector a)

theorem Confined.mono (h : s.Confined P role v) (hPQ : ∀ x, P x → Q x) : s.Confined Q role v := by
  induction h with
  | symbol h => exact .symbol fun hx => hPQ _ (h hx)
  | atom hp h => exact .atom hp h
  | quote hchain hform h => exact .quote hchain hform h
  | quasiquote hchain hform _ h => exact .quasiquote hchain hform h
  | list hchain hform _ _ hitems htail => exact .list hchain hform hitems htail
  | leaf hp hv h => exact .leaf hp hv h
  | form hform _ h => exact .form hform h
  | pair hform _ _ hcar hcdr => exact .pair hform hcar hcdr
  | vector _ hitems => exact .vector hitems

namespace Confined

variable {a : Address} {data : List Value} {keyword : QuasiKeyword} {level : Nat}

theorem symbol_of_isStamped (h : s.Confined P .code (.symbol x)) (hx : x.isStamped) : P x := by
  cases h with
  | symbol h => exact h hx
  | atom _ h =>
    rw [clean_symbol.mp h] at hx
    cases hx

theorem clean_atom (h : s.Confined P .code v) (hx : ∀ x, v ≠ .symbol x) (hp : ∀ a, v ≠ .pair a) :
    s.Clean v := by
  cases h with
  | symbol => exact absurd rfl (hx _)
  | atom _ h => exact h
  | quote | quasiquote | list => exact absurd rfl (hp _)

theorem clean_quotation (h : s.Confined P .code (.pair a)) (hchain : s.Chain (.pair a) items tail)
    (hform : Form.of items tail = .quote data) : s.Clean (.pair a) := by
  cases h with
  | atom hp => exact absurd rfl (hp a)
  | quote _ _ h => exact h
  | quasiquote hchain' hform' | list hchain' hform' =>
    obtain ⟨rfl, rfl⟩ := hchain.unique hchain'
    cases hform.symm.trans hform'

theorem operand (h : s.Confined P .code (.pair a)) (hchain : s.Chain (.pair a) items tail)
    (hform : Form.of items tail = .quasiquote w) : s.Confined P (.template 1) w := by
  cases h with
  | atom hp => exact absurd rfl (hp a)
  | quasiquote hchain' hform' h =>
    obtain ⟨rfl, rfl⟩ := hchain.unique hchain'
    cases hform.symm.trans hform'
    exact h
  | quote hchain' hform' | list hchain' hform' =>
    obtain ⟨rfl, rfl⟩ := hchain.unique hchain'
    cases hform.symm.trans hform'

theorem list_parts (h : s.Confined P .code (.pair a)) (hchain : s.Chain (.pair a) items tail)
    (hform : Form.of items tail = .other) :
    (∀ w ∈ items, s.Confined P .code w) ∧ s.Confined P .code tail := by
  cases h with
  | atom hp => exact absurd rfl (hp a)
  | list hchain' _ hitems htail =>
    obtain ⟨rfl, rfl⟩ := hchain.unique hchain'
    exact ⟨hitems, htail⟩
  | quote hchain' hform' | quasiquote hchain' hform' =>
    obtain ⟨rfl, rfl⟩ := hchain.unique hchain'
    cases hform.symm.trans hform'

theorem clean_leaf (h : s.Confined P (.template level) v) (hp : ∀ a, v ≠ .pair a)
    (hv : ∀ a, v ≠ .vector a) : s.Clean v := by
  cases h with
  | leaf _ _ h => exact h
  | form hform =>
    obtain ⟨a, rfl⟩ := quasiForm?_pair hform
    exact absurd rfl (hp a)
  | pair => exact absurd rfl (hp _)
  | vector => exact absurd rfl (hv _)

theorem inner (h : s.Confined P (.template level) v)
    (hform : s.quasiForm? v = some (keyword, w)) : s.Confined P (.within keyword level) w := by
  cases h with
  | leaf hp =>
    obtain ⟨a, rfl⟩ := quasiForm?_pair hform
    exact absurd rfl (hp a)
  | form hform' h =>
    cases hform.symm.trans hform'
    exact h
  | pair hform' => cases hform.symm.trans hform'
  | vector => cases hform

theorem parts (h : s.Confined P (.template level) (.pair a))
    (hform : s.quasiForm? (.pair a) = none) :
    s.Confined P (.template level) (s.pairAt a).car ∧
      s.Confined P (.template level) (s.pairAt a).cdr := by
  cases h with
  | leaf hp => exact absurd rfl (hp a)
  | form hform' => cases hform.symm.trans hform'
  | pair _ hcar hcdr => exact ⟨hcar, hcdr⟩

theorem vectorItem (h : s.Confined P (.template level) (.vector a)) :
    ∀ w ∈ (s.vectorAt a).toList, s.Confined P (.template level) w := by
  cases h with
  | leaf _ hv => exact absurd rfl (hv a)
  | form hform => cases hform
  | vector hitems => exact hitems

end Confined

theorem Sober.confined (h : s.Sober role v) (hv : s.Clean v) : s.Confined P role v := by
  induction h with
  | atom hp => exact .atom hp hv
  | quote hchain hform => exact .quote hchain hform hv
  | quasiquote hchain hform _ h =>
    obtain ⟨head, rfl⟩ := Form.of_quasiquote hform
    exact .quasiquote hchain hform (h ((hv.chain hchain).1 _ (by simp)))
  | list hchain hform _ hitems =>
    obtain ⟨hcleans, htail⟩ := hv.chain hchain
    exact .list hchain hform (fun w hw => hitems w hw (hcleans w hw))
      (.atom hchain.tail_ne_pair htail)
  | leaf hp hvector => exact .leaf hp hvector hv
  | form hform _ h =>
    obtain ⟨a, head, rfl, -, hchain⟩ := quasiForm?_chain hform
    exact .form hform (h ((hv.chain hchain).1 _ (by simp)))
  | pair hform _ _ hcar hcdr => exact .pair hform (hcar (hv.slot .car)) (hcdr (hv.slot .cdr))
  | vector _ hitems => exact .vector fun w hw => hitems w hw (hv.slot (.item hw))

theorem Sheds.reproduces (h : s.Sheds t v r) (hg : s.Grows t) (hv : s.Tree v) (hclean : s.Clean v) :
    s.Reproduces t v r := by
  induction h with
  | same hp hvector => exact .self hv hg
  | symbol hx =>
    rw [clean_symbol.mp hclean] at hx
    cases hx
  | pair hb _ _ hcar hcdr =>
    exact .pair hv.pair_lt hg hb (hcar hv.car (hclean.slot .car)) (hcdr hv.cdr (hclean.slot .cdr))
  | vector hb hlength _ hitems =>
    refine .vector hv.vector_lt hg hb (List.forall₂_iff_zip.mpr ⟨hlength, fun {v w} hvw => ?_⟩)
    have hmem := (List.of_mem_zip hvw).1
    exact hitems v w hvw (hv.item hmem) (hclean.slot (.item hmem))

theorem Reproduces.labelled {name : String} {w' : Value} (hv : s.Tree v)
    (hchain : s.Chain v [.name name, w] .null) (hr : t.Spine r [.name name, w'] .null)
    (hg : s.Grows t) (h : s.Reproduces t w w') : s.Reproduces t v r :=
  .spine (hv.spine hchain) hg hr (.cons (.self (.leaf nofun nofun) hg) (.cons h .nil))
    (.self (.leaf nofun nofun) hg)

end Store

namespace Renaming

theorem Rewritten.confined (h : Rewritten bound s t role v r) (hv : s.Form v)
    (hsober : s.Sober role v) : t.Confined (· ∈ bound) role r := by
  induction h with
  | symbol x =>
    refine .symbol fun hx => ?_
    by_cases hmem : x ∈ bound
    · simp [hmem]
    · by_cases hstamped : x.isStamped <;> simp [hmem, hstamped] at hx
      cases hx
  | atom _ hp h => exact .atom (h.2.ne_pair hp) h.1
  | quote hchain hform h =>
    obtain ⟨rs, last, hchain', hrs, -⟩ := h.2.chain hchain
    obtain ⟨b, rfl⟩ := h.2.exists_pair
    obtain ⟨hhead, head, rfl⟩ := Form.eq_quote.mp hform
    have hof := Store.Sheds.ofItems_eq hrs (hv.chain hchain).1
    obtain ⟨_, _, -, -, rfl⟩ := List.forall₂_cons_left_iff.mp hrs
    exact .quote hchain' (Form.eq_quote.mpr ⟨hof.trans hhead, _, rfl⟩) h.1
  | quasiquote hchain hspine hw ih =>
    obtain ⟨b, rfl⟩ := ((Rewritten.quasiquote hchain hspine hw).sheds hv.tree).exists_pair
    exact .quasiquote (hspine.chain nofun) rfl
      (ih ((hv.chain hchain).1 _ (.tail _ (.head _))) (hsober.operand hchain rfl))
  | definition hchain hform => exact absurd hform (hsober.not_definition hchain)
  | other hchain hform hspine hlength hitems htail ihitems ihtail =>
    obtain ⟨hforms, hform'⟩ := hv.chain hchain
    obtain ⟨b, rfl⟩ := ((Rewritten.other hchain hform hspine hlength hitems htail).sheds
      hv.tree).exists_pair
    have hlast := htail.sheds hform'.tree
    have hrs : List.Forall₂ (s.Sheds t) _ _ := List.forall₂_iff_zip.mpr ⟨hlength, fun hvw =>
      (hitems _ _ hvw).sheds (hforms _ (List.of_mem_zip hvw).1).tree⟩
    -- A list that was no special form does not become one by losing stamps.
    refine .list (hspine.chain (hlast.ne_pair hchain.tail_ne_pair))
      (Store.Sheds.other hrs hforms hlast hform' hform) (fun w hw => ?_)
      (ihtail hform' (.atom hchain.tail_ne_pair))
    obtain ⟨v, hvw⟩ := exists_mem_zip hlength hw
    have hmem := (List.of_mem_zip hvw).1
    exact ihitems v w hvw (hforms v hmem) (hsober.item hchain hform hmem)
  | leaf hp hvector h =>
    refine .leaf (h.2.ne_pair hp) ?_ h.1
    rintro b rfl
    cases h.2 with
    | same _ hv => exact hv b rfl
    | vector => exact hvector _ rfl
  | form hform hchain hspine hw ih =>
    exact .form (Store.quasiForm?_of_chain (hspine.chain nofun) (QuasiKeyword.ofSymbol?_name _))
      (ih ((hv.chain hchain).1 _ (.tail _ (.head _))) (hsober.inner hform))
  | pair hform hb hcar hcdr ihcar ihcdr =>
    obtain ⟨hsober, hsober'⟩ := hsober.parts hform
    exact .pair (((Rewritten.pair hform hb hcar hcdr).sheds hv.tree).form_none hv hform)
      (ihcar hv.car hsober) (ihcdr hv.cdr hsober')
  | vector hb hlength hitems ih =>
    refine .vector fun w hw => ?_
    obtain ⟨v, hvw⟩ := exists_mem_zip hlength hw
    have hmem := (List.of_mem_zip hvw).1
    exact ih v w hvw (hv.item v hmem) (hsober.vectorItem v hmem)

theorem Rewritten.reproduces (h : Rewritten bound s t role v r) (hv : s.Form v) (hg : s.Grows t)
    (hconfined : s.Confined (· ∈ bound) role v) : s.Reproduces t v r := by
  induction h with
  | symbol x =>
    have hx : x.isStamped → x ∈ bound := hconfined.symbol_of_isStamped
    rw [if_neg (by simpa using hx)]
    exact .self hv.tree hg
  | atom hx hp h => exact h.2.reproduces hg hv.tree (hconfined.clean_atom hx hp)
  | quote hchain hform h =>
    exact h.2.reproduces hg hv.tree (hconfined.clean_quotation hchain hform)
  | quasiquote hchain hspine hw ih =>
    have hoperand := (hv.chain hchain).1 _ (.tail _ (.head _))
    exact .labelled hv.tree hchain hspine hg (ih hoperand (hconfined.operand hchain rfl))
  | definition hchain hform => exact .self hv.tree hg
  | other hchain hform hspine hlength hitems htail ihitems ihtail =>
    obtain ⟨hforms, hform'⟩ := hv.chain hchain
    obtain ⟨hconfined, hlast⟩ := hconfined.list_parts hchain hform
    refine .spine (hv.tree.spine hchain) hg hspine
      (List.forall₂_iff_zip.mpr ⟨hlength, fun {v w} hvw => ?_⟩) (ihtail hform' hlast)
    have hmem := (List.of_mem_zip hvw).1
    exact ihitems v w hvw (hforms v hmem) (hconfined v hmem)
  | leaf hp hvector h => exact h.2.reproduces hg hv.tree (hconfined.clean_leaf hp hvector)
  | form hform hchain hspine hw ih =>
    have hoperand := (hv.chain hchain).1 _ (.tail _ (.head _))
    exact .labelled hv.tree hchain hspine hg (ih hoperand (hconfined.inner hform))
  | pair hform hb hcar hcdr ihcar ihcdr =>
    obtain ⟨hconfined, hconfined'⟩ := hconfined.parts hform
    exact .pair hv.tree.pair_lt hg hb (ihcar hv.car hconfined) (ihcdr hv.cdr hconfined')
  | vector hb hlength hitems ih =>
    refine .vector hv.tree.vector_lt hg hb
      (List.forall₂_iff_zip.mpr ⟨hlength, fun {v w} hvw => ?_⟩)
    have hmem := (List.of_mem_zip hvw).1
    exact ih v w hvw (hv.item v hmem) (hconfined.vectorItem v hmem)

/-- Settling the stamps of a sober form without mistaken binders only takes stamps off. Those that
are left stand in code positions and are bound in such positions, and settling once more makes a
copy. -/
theorem renameIntroduced_settled (hv : s.Form v) (hsober : s.Sober .code v)
    (hfound : s.Unmistaken .code v) :
    ∃ r t, renameIntroduced v s = .ok r t ∧ s.Sheds t v r ∧
      t.Confined (fun x => s.BindsIn x .code v) .code r ∧
      ∃ r' u, renameIntroduced r t = .ok r' u ∧ u.equal? r r' = some true := by
  obtain ⟨r, t, h⟩ := renameIntroduced_tree hv.tree
  have hsheds := renameIntroduced_sheds hv h
  have hr := hsheds.of_form hv
  obtain ⟨r', u, h'⟩ := renameIntroduced_tree hr.tree
  have hg := ((expanding_renameIntroduced r).of_ok h').toGrows
  suffices hall : t.Confined (fun x => s.BindsIn x .code v) .code r ∧ t.Reproduces u r r' by
    obtain ⟨hconfined, hcopy⟩ := hall
    exact ⟨r, t, h, hsheds, hconfined, r', u, h',
      (hcopy.copies _ hr.tree.within).equal? hg.cells_le⟩
  rcases renameIntroduced_cases hv h with ⟨hclean, rfl, rfl⟩ | ⟨bound, hbound, hrewritten⟩
  · cases h.symm.trans h'
    exact ⟨hsober.confined hclean, .self hv.tree hg⟩
  · have hconfined := hrewritten.confined hv hsober
    have hbinds := fun x (hx : x ∈ bound) => bindsIn_of_binders hv hfound hrewritten hbound hx hx
    refine ⟨hconfined.mono fun x hx => (hbinds x hx).1, ?_⟩
    -- What the first pass took for bound the second search finds again, so no more stamps go.
    rcases renameIntroduced_cases hr h' with ⟨-, rfl, rfl⟩ | ⟨bound', hbound', hrewritten'⟩
    · exact .self hr.tree hg
    · exact hrewritten'.reproduces hr hg
        (hconfined.mono fun x hx => (hbinds x hx).2 _ _ hbound')

/-- Holds ``(lambda (x$1) `(f$1 lambda (x$1) ,x$1))``. -/
def abstraction : Store :=
  { Store.empty with
    pairs := #[⟨.symbol ((Symbol.user "x").stamp 1 0), .null⟩,
      ⟨.symbol ((Symbol.user "x").stamp 1 0), .null⟩, ⟨.name "unquote", .pair 1⟩,
      ⟨.pair 2, .null⟩, ⟨.pair 0, .pair 3⟩, ⟨.name "lambda", .pair 4⟩,
      ⟨.symbol ((Symbol.user "f").stamp 1 0), .pair 5⟩, ⟨.pair 6, .null⟩,
      ⟨.name "quasiquote", .pair 7⟩, ⟨.pair 8, .null⟩, ⟨.pair 0, .pair 9⟩,
      ⟨.name "lambda", .pair 10⟩] }

theorem form_abstraction : abstraction.Form (.pair 11) := by
  have hstamped : ∀ name, isCoreKeyword name = false →
      abstraction.Form (.symbol ((Symbol.user name).stamp 1 0)) := fun name hname =>
    Store.form_symbol (.inr ⟨rfl, hname⟩)
  have hnull : abstraction.Form .null := Store.form_constant rfl
  have hx : abstraction.Form (.pair 0) := .pair (by decide) (hstamped "x" (by decide)) hnull
  have hunquote : abstraction.Form (.pair 2) := .pair (by decide) (Store.form_name _)
    (.pair (by decide) (hstamped "x" (by decide)) hnull)
  have htemplate : abstraction.Form (.pair 6) := .pair (by decide) (hstamped "f" (by decide))
    (.pair (by decide) (Store.form_name _)
      (.pair (by decide) hx (.pair (by decide) hunquote hnull)))
  have hquasiquote : abstraction.Form (.pair 8) := .pair (by decide) (Store.form_name _)
    (.pair (by decide) htemplate hnull)
  exact .pair (by decide) (Store.form_name _)
    (.pair (by decide) hx (.pair (by decide) hquasiquote hnull))

theorem chain_parameters :
    abstraction.Chain (.pair 0) [.symbol ((Symbol.user "x").stamp 1 0)] .null :=
  Store.splitList?_eq_some.mp rfl

theorem chain_unquoted : abstraction.Chain (.pair 2)
    [.name "unquote", .symbol ((Symbol.user "x").stamp 1 0)] .null :=
  Store.splitList?_eq_some.mp rfl

theorem chain_template : abstraction.Chain (.pair 6)
    [.symbol ((Symbol.user "f").stamp 1 0), .name "lambda", .pair 0, .pair 2] .null :=
  Store.splitList?_eq_some.mp rfl

theorem chain_quasiquotation :
    abstraction.Chain (.pair 8) [.name "quasiquote", .pair 6] .null :=
  Store.splitList?_eq_some.mp rfl

theorem chain_abstraction :
    abstraction.Chain (.pair 11) [.name "lambda", .pair 0, .pair 8] .null :=
  Store.splitList?_eq_some.mp rfl

theorem sober_abstraction : abstraction.Sober .code (.pair 11) := by
  have hparameters : abstraction.Sober .code (.pair 0) :=
    .list chain_parameters rfl (by simpa using .atom nofun)
  have htemplate : abstraction.Sober (.template 1) (.pair 6) := by
    have hleaf : ∀ x, abstraction.Sober (.template 1) (.symbol x) := fun x => .leaf nofun nofun
    have hnull : abstraction.Sober (.template 1) .null := .leaf nofun nofun
    have hform : abstraction.quasiForm? (.pair 2) =
        some (.unquote, .symbol ((Symbol.user "x").stamp 1 0)) := rfl
    have hunquote : abstraction.Sober (.template 1) (.pair 2) := .form hform (.atom nofun)
    exact .pair rfl (hleaf _) (.pair rfl (hleaf _) (.pair rfl (.pair rfl (hleaf _) hnull)
      (.pair rfl hunquote hnull)))
  refine .list chain_abstraction rfl ?_
  simp only [List.forall_mem_cons]
  exact ⟨.atom nofun, hparameters, .quasiquote chain_quasiquotation rfl htemplate, nofun⟩

theorem unmistaken_abstraction : abstraction.Unmistaken .code (.pair 11) := by
  have htemplate : abstraction.Unmistaken (.template 1) (.pair 6) := by
    refine .of_items chain_template nofun (fun _ w hw => ?_) fun inner w _ hw => ?_
    · rcases hw.1 with hbinds | hbinds <;> cases hbinds
    · have hw := mem_of_searched hw
      simp only [List.mem_cons, List.not_mem_nil, or_false] at hw
      rcases hw with rfl | rfl | rfl | rfl
      · exact .atom nofun
      · exact .atom nofun
      · exact .row chain_parameters rfl (by simp)
      · exact .row chain_unquoted rfl (by simp [Value.name])
  refine .list chain_abstraction rfl (fun w ws last hw hchain => ?_) fun w hw => ?_
  · obtain ⟨-, head, body, heq⟩ := hw
    cases heq
    obtain ⟨rfl, rfl⟩ := hchain.unique chain_parameters
    rfl
  · obtain rfl := List.mem_singleton.mp hw
    exact .quasiquote chain_quasiquotation rfl htemplate

/-- The parameter keeps its stamp there, the symbols of the template do not. -/
theorem renameIntroduced_settled_abstraction :
    abstraction.Form (.pair 11) ∧ abstraction.Sober .code (.pair 11) ∧
      abstraction.Unmistaken .code (.pair 11) ∧
      ∃ r t, renameIntroduced (.pair 11) abstraction = .ok r t ∧
        abstraction.Sheds t (.pair 11) r ∧
        t.Confined (fun x => abstraction.BindsIn x .code (.pair 11)) .code r ∧
        ∃ r' u, renameIntroduced r t = .ok r' u ∧ u.equal? r r' = some true :=
  ⟨form_abstraction, sober_abstraction, unmistaken_abstraction,
    renameIntroduced_settled form_abstraction sober_abstraction unmistaken_abstraction⟩

end Renaming

end HygienicScheme
