import HygienicScheme.Proofs.Stamps.Rewriting
import HygienicScheme.Proofs.Stamps.Sound

/-!
# Settled forms are sound

The pass that settles stamps walks over a form as the evaluator will: where it takes a part for data
it takes off the stamps, and where the evaluator will take a part for a special form the pass took
it for the same one. Only in a vector do the two walks differ, and there the elements are sound one
by one.
-/
namespace HygienicScheme

open Machine (specialForm?)

variable {s t : Store} {v r tail : Value} {items : List Value}

namespace SpecialForm

theorem ofName?_core {name : String} {form : SpecialForm} (h : ofName? name = some form) :
    isCoreKeyword name := by
  unfold ofName? at h
  split at h <;> first | decide | cases h

theorem ofName?_quote {name : String} (h : ofName? name = some .quote) : name = "quote" := by
  unfold ofName? at h
  split at h <;> first | rfl | cases h

theorem ofName?_quasiquote {name : String} (h : ofName? name = some .quasiquote) :
    name = "quasiquote" := by
  unfold ofName? at h
  split at h <;> first | rfl | cases h

theorem ofSymbol?_some {x : Symbol} {form : SpecialForm} (h : ofSymbol? x = some form) :
    x.isStamped = false ∧ ofName? x.name = some form := by
  unfold ofSymbol? at h
  split at h
  · cases h
  · rename_i hx
    exact ⟨Bool.eq_false_iff.mpr hx, h⟩

end SpecialForm

theorem specialForm?_symbol {form : SpecialForm} (h : specialForm? v = some form) :
    ∃ x, v = .symbol x := by
  cases v with
  | symbol x => exact ⟨x, rfl⟩
  | _ => cases h

namespace Renaming

theorem Form.of_other {x : Symbol} {more : List Value}
    (h : Form.of (.symbol x :: more) tail = .other) :
    specialForm? (.symbol x) ≠ some .quote ∧
      (specialForm? (.symbol x) = some .quasiquote → ¬ ∃ v, more = [v] ∧ tail = .null) := by
  have hhead : ∀ {form}, specialForm? (.symbol x) = some form →
      x.isStamped = false ∧ SpecialForm.ofName? x.name = some form := SpecialForm.ofSymbol?_some
  constructor
  · intro hquote
    obtain ⟨hstamped, hname⟩ := hhead hquote
    simp [Form.of, Head.ofItems, hstamped, SpecialForm.ofName?_quote hname] at h
  · rintro hquasiquote ⟨v, rfl, rfl⟩
    obtain ⟨hstamped, hname⟩ := hhead hquasiquote
    simp [Form.of, Head.ofItems, hstamped, SpecialForm.ofName?_quasiquote hname] at h

theorem Head.ofItems_defineSyntax (h : Head.ofItems items = .defineSyntax) :
    ∃ head more, items = head :: more ∧ specialForm? head = some .defineSyntax := by
  unfold Head.ofItems at h
  split at h
  · rename_i x more
    split_ifs at h with hstamped _ _ _ _ hname
    have hx : x.isStamped = false := Bool.eq_false_iff.mpr hstamped
    refine ⟨_, more, rfl, ?_⟩
    simp [specialForm?, SpecialForm.ofSymbol?, hx, beq_iff_eq.mp hname, SpecialForm.ofName?]
  · cases h

theorem Form.of_definition (h : Form.of items tail = .definition) :
    ∃ head more, items = head :: more ∧ specialForm? head = some .defineSyntax :=
  Head.ofItems_defineSyntax (Form.eq_definition.mp h)

theorem operands_sound {rs : List Value} {last : Value} (h : t.Spine r rs last)
    (hrs : ∀ r ∈ rs, t.Sound .code r) (hlast : ∀ a, last ≠ .pair a) : t.Sound .operands r := by
  induction h with
  | nil => exact .last hlast
  | cons ha _ ih =>
    obtain ⟨hcar, hmore⟩ := List.forall_mem_cons.mp hrs
    exact .operand ha hcar (ih hmore hlast)

theorem list_sound {rs : List Value} {last : Value} (hform : Form.of rs last = .other)
    (hne : rs ≠ []) (hspine : t.Spine r rs last) (hrs : ∀ r ∈ rs, t.Sound .code r)
    (hend : ∀ a, last ≠ .pair a) : t.Sound .code r := by
  cases hspine with
  | nil => exact absurd rfl hne
  | @cons b rest _ hb hspine =>
    obtain ⟨hhead, hrest⟩ := List.forall_mem_cons.mp hrs
    by_cases hspecial : specialForm? (t.pairAt b).car = some .quasiquote
    · refine .quasiquotation hb hspecial ?_ fun w hw => ?_
      · intro c hc
        rw [hc] at hspine
        exact hspine.pair_lt hend
      · -- With one operand it would be a template, and the list is none.
        obtain ⟨x, hx⟩ := specialForm?_symbol hspecial
        rw [hx] at hform hspecial
        obtain ⟨rfl, rfl⟩ := (hspine.chain hend).unique (Store.properList?_eq_some.mp hw)
        exact absurd ⟨w, rfl, rfl⟩ ((Form.of_other hform).2 hspecial)
    · refine .form hb hhead (operands_sound hspine hrest hend) ?_ hspecial
      intro hquote
      obtain ⟨x, hx⟩ := specialForm?_symbol hquote
      rw [hx] at hform hquote
      exact (Form.of_other hform).1 hquote

theorem Rewritten.sound {bound : List Symbol} {role : Role}
    (h : Rewritten bound s t role v r) (hv : s.Form v) : t.Sound role r := by
  induction h with
  | symbol x => exact .symbol _
  | atom _ _ h | quote _ _ h | leaf _ _ h => exact .clean h.1
  | quasiquote hchain hr _ ih =>
    obtain ⟨b, c, rfl, hb, hc, hcell, hcell'⟩ := hr.two
    refine .quasiquotation hb (by rw [hcell]; rfl) ?_ fun w hlist => ?_
    · rintro _ heq
      rw [hcell] at heq
      cases heq
      exact hc
    · rw [hcell, Store.properList?_singleton] at hlist
      obtain ⟨_, heq, hlast⟩ := hlist
      cases heq
      rw [hcell'] at hlast
      cases hlast
      exact ih ((hv.chain hchain).1 _ (.tail _ (.head _)))
  | @definition a _ _ hchain hform h =>
    obtain ⟨_, heq, ha, hcar, -⟩ := h.pair_lt
    cases heq
    cases hchain with
    | tail hp => exact absurd rfl (hp a)
    | pair =>
      obtain ⟨head, more, hitems, hhead⟩ := Form.of_definition hform
      obtain ⟨rfl, -⟩ := List.cons.inj hitems
      obtain ⟨x, hx⟩ := specialForm?_symbol hhead
      rw [hx] at hhead hcar
      have hsame := hcar.unstamped_symbol (SpecialForm.ofSymbol?_some hhead).1
      exact .definition ha (by rw [hsame, hhead])
  | other hchain hform hr hlength hitems htail ihitems ihtail =>
    obtain ⟨hforms, hform'⟩ := hv.chain hchain
    have hlast := htail.sheds hform'.tree
    have hrs : List.Forall₂ (s.Sheds t) _ _ := List.forall₂_iff_zip.mpr ⟨hlength, fun hvw =>
      (hitems _ _ hvw).sheds (hforms _ (List.of_mem_zip hvw).1).tree⟩
    refine list_sound (Store.Sheds.other hrs hforms hlast hform' hform) ?_ hr (fun w hw => ?_)
      (hlast.ne_pair hchain.tail_ne_pair)
    · rintro rfl
      cases hchain with
      | tail hp => exact hp _ rfl
      | pair => cases hlength
    · obtain ⟨v, hvw⟩ := exists_mem_zip hlength hw
      exact ihitems v w hvw (hforms v (List.of_mem_zip hvw).1)
  | form hform hchain hr _ ih =>
    have hkeyword := Store.quasiForm?_of_chain (hr.chain nofun) (QuasiKeyword.ofSymbol?_name _)
    obtain ⟨b, c, rfl, hb, hc, hcell, -⟩ := hr.two
    refine .inner hb ?_ ?_ hkeyword (ih ((hv.chain hchain).1 _ (.tail _ (.head _))))
    · rw [hcell]
      exact Store.clean_name _
    · rintro _ heq
      rw [hcell] at heq
      cases heq
      exact hc
  | pair hform hb hcar hcdr ihcar ihcdr =>
    exact .cons hb (((Rewritten.pair hform hb hcar hcdr).sheds hv.tree).form_none hv hform)
      (ihcar hv.car) (ihcdr hv.cdr)
  | vector hb hlength _ hitems =>
    refine .items hb fun w hw => ?_
    obtain ⟨v, hvw⟩ := exists_mem_zip hlength hw
    exact hitems v w hvw (hv.item v (List.of_mem_zip hvw).1)

theorem renameIntroduced_sound (hv : s.Form v) (h : renameIntroduced v s = .ok r t) :
    t.Sound .code r := by
  rcases renameIntroduced_cases hv h with ⟨hclean, rfl, rfl⟩ | ⟨bound, -, hrewritten⟩
  · exact .clean hclean
  · exact hrewritten.sound hv

end Renaming

end HygienicScheme
