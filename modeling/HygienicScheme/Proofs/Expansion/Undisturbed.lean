import HygienicScheme.Proofs.Expansion.Positions
import HygienicScheme.Proofs.Stamps.Stripping
import HygienicScheme.Proofs.Store.Copies

/-!
# Forms without uses

The expander takes the lists of a form apart and conses them anew. If no head of a list in a code
position is the name of a transformer or of a form that installs one, then what it makes of the form
is a copy, whatever names there are in data and in the other places that it leaves alone.
-/
namespace HygienicScheme

variable {s t u : Store} {v w tail last : Value} {items ws : List Value} {n : Nat}

namespace Store

/-- At most so many lists and vectors lie one inside the other. -/
inductive Nested (s : Store) : Nat → Value → Prop
  | leaf {n : Nat} {v : Value} (hp : ∀ a, v ≠ .pair a) (hv : ∀ a, v ≠ .vector a) : Nested s n v
  | pair {n : Nat} {a : Address} (hcar : Nested s n (s.pairAt a).car)
      (hcdr : Nested s (n + 1) (s.pairAt a).cdr) : Nested s (n + 1) (.pair a)
  | vector {n : Nat} {a : Address} (hitems : ∀ v ∈ (s.vectorAt a).toList, Nested s n v) :
      Nested s (n + 1) (.vector a)

namespace Nested

theorem pos {a : Address} (h : s.Nested n (.pair a)) : ∃ m, n = m + 1 := by
  cases h with
  | leaf hp => exact absurd rfl (hp a)
  | pair => exact ⟨_, rfl⟩

theorem car {a : Address} (h : s.Nested n (.pair a)) : s.Nested (n - 1) (s.pairAt a).car := by
  cases h with
  | leaf hp => exact absurd rfl (hp a)
  | pair hcar => exact hcar

theorem cdr {a : Address} (h : s.Nested n (.pair a)) : s.Nested n (s.pairAt a).cdr := by
  cases h with
  | leaf hp => exact absurd rfl (hp a)
  | pair _ hcdr => exact hcdr

theorem item {a : Address} (h : s.Nested n (.vector a)) :
    ∀ v ∈ (s.vectorAt a).toList, s.Nested (n - 1) v := by
  cases h with
  | leaf _ hv => exact absurd rfl (hv a)
  | vector hitems => exact hitems

theorem chain (h : s.Nested n v) (hchain : s.Chain v items tail) :
    ∀ w ∈ items, s.Nested (n - 1) w := by
  induction hchain with
  | tail => simp
  | pair _ ih => exact List.forall_mem_cons.mpr ⟨h.car, ih h.cdr⟩

theorem operand {keyword : QuasiKeyword} (h : s.Nested n v)
    (hform : s.quasiForm? v = some (keyword, w)) : s.Nested (n - 1) w := by
  obtain ⟨a, head, rfl, -, hchain⟩ := quasiForm?_chain hform
  exact h.chain hchain w (by simp)

end Nested

theorem Tree.isStamped? (h : s.Tree v) (hclean : s.Clean v) : s.isStamped? v = some false := by
  have hstampless : s.Stampless v := by
    intro x hx
    have hplain : x.Plain := (Throughout.reached hclean hx).here
    rw [hplain]
    rfl
  obtain ⟨b, hb⟩ := h.within.partsWithin.unfolds.isStamped? h.inside
  cases b with
  | false => exact hb
  | true => exact absurd hb hstampless.stampedWithin_ne

end Store

namespace Expansion

open Store

variable {env : Environment}

/-- At the head of a list the name is not that of a transformer and installs none. -/
structure Idle (env : Environment) (s : Store) (x : Symbol) : Prop where
  unbound : s.transformer? x.name env.chain = none
  installs_none : x.name ∉ ["define-syntax", "let-syntax", "letrec-syntax"]

theorem Idle.of_frames {x : Symbol} (h : Idle env s x) (ht : t.frames = s.frames) :
    Idle env t x :=
  ⟨(transformer?_congr ht _ _).trans h.unbound, h.installs_none⟩

def Stays (env : Environment) (s : Store) : Role → Value → Prop
  | .code, v => ∀ room, s.Nested room v → s.Yields (expand env room v) v
  | .template level, v => ∀ room fuel n, s.Nested room v → s.Within n v → n < fuel →
      s.Yields (expandTemplate env room fuel level v) v
  | .operands, _ => True

theorem list_stays {a : Address} (hv : s.Tree (.pair a)) (hchain : s.Chain (.pair a) items tail)
    (hhead : ∀ x more, items = .symbol x :: more → Idle env s x)
    (hcode : ∀ w ∈ codeItems items, Stays env s .code w)
    (htemplate : ∀ w, Renaming.Form.of items tail = .quasiquote w → Stays env s (.template 1) w) :
    Stays env s .code (.pair a) := by
  intro room hroom t ht
  obtain ⟨room, rfl⟩ := hroom.pos
  have hnested : ∀ w ∈ items, s.Nested room w := hroom.chain hchain
  have hsame : s.Yields (pure (.pair a)) (.pair a) := .pure hv
  rw [expand_list (splitList?_eq_some.mpr ((hv.inside.chain_grows ht.toGrows).mpr hchain))]
  -- An idle head neither uses a transformer nor installs one.
  cases hkind : headOf env items t with
  | use m =>
    obtain ⟨x, more, rfl, hm⟩ := headOf_use hkind
    rw [((hhead x more rfl).of_frames ht.frames_eq).unbound] at hm
    cases hm
  | defineSyntax =>
    obtain ⟨x, more, rfl, hname, -⟩ := headOf_defineSyntax hkind
    exact absurd (hname ▸ (hhead x more rfl).installs_none) (by simp)
  | letSyntax keyword =>
    obtain ⟨x, more, rfl, -, hname, -⟩ := headOf_letSyntax hkind
    exact absurd (hhead x more rfl).installs_none (by simp [hname])
  | quote => exact hsame t ht
  | quasiquote =>
    dsimp only
    split
    · rename_i keyword w
      have hw : s.Within s.cells w := (hv.items hchain w (by simp)).within
      have hfuel : s.cells < t.walkBound := by
        have hcells := ht.cells_le
        have hbound := t.cells_lt_walkBound
        omega
      exact Yields.two hv hchain (htemplate w (form_of_quasiquote hkind) room _ _
        (hnested w (by simp)) hw hfuel) t ht
    · exact hsame t ht
  | binding =>
    have hparts : s.Chain (.pair a) (items.take 2 ++ items.drop 2) tail := by
      rwa [List.take_append_drop]
    refine Yields.list hv hparts (fun w hw => ?_) t ht
    have hw' : w ∈ codeItems items := (codeItems_binding (headOf_binding hkind).1).symm ▸ hw
    exact hcode w hw' room (hnested w (List.mem_of_mem_drop hw))
  | other =>
    have hparts : s.Chain (.pair a) ([] ++ items) tail := hchain
    refine Yields.list hv hparts (fun w hw => ?_) t ht
    rcases codeItems_other hkind w hw with hw' | hleaf
    · exact hcode w hw' room (hnested w hw)
    · rw [expand_leaf env room hleaf]
      exact .pure (hv.items hchain w hw)

theorem form_stays {keyword : QuasiKeyword} {level : Nat} (hv : s.Tree v) (hclean : s.Clean v)
    (hform : s.quasiForm? v = some (keyword, w)) (h : Stays env s (.within keyword level) w) :
    Stays env s (.template level) v := by
  intro room fuel n hroom hn hfuel t ht
  obtain ⟨fuel, rfl⟩ := Nat.exists_eq_add_of_lt hfuel
  rw [expandTemplate_form ((ht.toGrows.quasiForm?_eq hv).trans hform)]
  obtain ⟨a, head, rfl, hkeyword, hchain⟩ := quasiForm?_chain hform
  have hhead : Value.symbol head = .name keyword.name := by
    have hplain : head.Plain := clean_symbol.mp ((hclean.chain hchain).1 _ (by simp))
    rw [hplain, (QuasiKeyword.of_symbol hkeyword).2]
    rfl
  rw [hhead] at hchain
  refine Yields.two hv hchain ?_ t ht
  have hoperand := hroom.operand hform
  cases n with
  | zero => exact absurd rfl (hn.1 _)
  | succ n =>
    have hlower := hn.operand hform
    unfold Role.within at h
    split_ifs at h ⊢
    · exact h _ _ n hoperand hlower (by omega)
    · exact h _ hoperand
    · exact h _ _ n hoperand hlower (by omega)

theorem pair_stays {a : Address} {level : Nat} (hv : s.Tree (.pair a))
    (hform : s.quasiForm? (.pair a) = none) (hcar : Stays env s (.template level) (s.pairAt a).car)
    (hcdr : Stays env s (.template level) (s.pairAt a).cdr) :
    Stays env s (.template level) (.pair a) := by
  intro room fuel n hroom hn hfuel t ht
  obtain ⟨fuel, rfl⟩ := Nat.exists_eq_add_of_lt hfuel
  rw [expandTemplate_pair ((ht.toGrows.quasiForm?_eq hv).trans hform),
    ht.pairAt_eq hv.pair_lt]
  cases n with
  | zero => exact absurd rfl (hn.1 _)
  | succ n =>
    exact Yields.cons hv.pair_lt (hcar _ _ n hroom.car hn.1 (by omega))
      (hcdr _ _ n hroom.cdr hn.2 (by omega)) t ht

theorem vector_stays {a : Address} {level : Nat} (hv : s.Tree (.vector a))
    (hitems : ∀ w ∈ (s.vectorAt a).toList, Stays env s (.template level) w) :
    Stays env s (.template level) (.vector a) := by
  intro room fuel n hroom hn hfuel t ht
  obtain ⟨fuel, rfl⟩ := Nat.exists_eq_add_of_lt hfuel
  rw [expandTemplate_vector, ht.vectorAt_eq hv.vector_lt]
  cases n with
  | zero => exact absurd rfl (hn.2 _)
  | succ n =>
    refine Yields.vector hv.vector_lt (fun w hw => ?_) t ht
    exact hitems w hw _ _ n (hroom.item w hw) (hn w hw) (by omega)

theorem stays {role : Role} (h : s.Headed (Idle env s) role v) (hv : s.Tree v)
    (hclean : s.Clean v) : Stays env s role v := by
  induction h with
  | atom hp =>
    intro room _
    rw [expand_leaf env room hp]
    exact .pure hv
  | list hchain hhead _ _ hcode htemplate =>
    have htrees := hv.items hchain
    have hcleans := (hclean.chain hchain).1
    refine list_stays hv hchain hhead (fun w hw => ?_) fun w hw => ?_
    · exact hcode w hw (htrees w (mem_of_codeItems hw)) (hcleans w (mem_of_codeItems hw))
    · obtain ⟨head, rfl⟩ := Renaming.Form.of_quasiquote hw
      exact htemplate w hw (htrees w (by simp)) (hcleans w (by simp))
  | leaf hp hvector =>
    intro room fuel n _ _ hfuel
    obtain ⟨fuel, rfl⟩ := Nat.exists_eq_add_of_lt hfuel
    rw [expandTemplate_leaf hp hvector]
    exact .pure hv
  | form hform _ hoperand =>
    obtain ⟨a, head, rfl, -, hchain⟩ := quasiForm?_chain hform
    exact form_stays hv hclean hform (hoperand (hv.operand hform)
      ((hclean.chain hchain).1 _ (by simp)))
  | pair hform _ _ hcar hcdr =>
    exact pair_stays hv hform (hcar hv.car (hclean.slot .car))
      (hcdr hv.cdr (hclean.slot .cdr))
  | vector _ hitems =>
    exact vector_stays hv fun w hw => hitems w hw (hv.item hw) (hclean.slot (.item hw))

theorem clean_of_equal (hv : s.Clean v) (hw : s.Tree w) (h : s.equalWithin n v w = some true) :
    s.Clean w := by
  induction n generalizing v w with
  | zero => cases h
  | succ n ih =>
    cases w with
    | pair b =>
      cases v with
      | pair a =>
        rcases equalWithin_pair.mp h with rfl | ⟨hcar, hcdr⟩
        · exact hv
        · exact clean_pair.mpr
            ⟨hw.pair_lt, ih (hv.slot .car) hw.car hcar, ih (hv.slot .cdr) hw.cdr hcdr⟩
      | _ => cases h
    | vector b =>
      cases v with
      | vector a =>
        rcases equalWithin_vector.mp h with rfl | hitems
        · exact hv
        · refine clean_vector.mpr ⟨hw.vector_lt, fun y hy => ?_⟩
          obtain ⟨x, hx, hxy⟩ := SyntaxRules.exists_of_mem_right hitems hy
          exact ih (hv.slot (.item hx)) (hw.item hy) hxy
      | _ => cases h
    | symbol y =>
      cases v with
      | symbol x =>
        have hxy : x = y := by simpa [equalWithin, Value.eqv] using h
        exact hxy ▸ hv
      | _ => cases h
    | _ => exact clean_constant rfl

/-- A form without stamps and without uses is expanded to a copy of it, and no transformer is
installed. -/
theorem expandToplevel_copies (hv : s.Tree v) (hclean : s.Clean v)
    (hnested : s.Nested (maxDepth + 1) v) (hidle : s.Headed (Idle env s) .code v) :
    ∃ w t, expandToplevel env v s = .ok w t ∧ t.equal? v w = some true ∧ t.frames = s.frames := by
  have hstarted : s.Enlarges (started s) := ⟨.of_cells_eq rfl rfl, rfl⟩
  obtain ⟨w, t, hw, ht, hcopy⟩ :=
    stays hidle hv hclean (maxDepth + 1) hnested _ hstarted
  have hall := hstarted.trans ht
  have hequal := hcopy.copies _ hv.within
  have hclean : t.Clean w :=
    clean_of_equal (hclean.grow hall.toGrows) hcopy.tree (hequal t (.refl t))
  refine ⟨w, t, ?_, hequal.equal? hall.cells_le, hall.frames_eq⟩
  rw [expandToplevel_eq, Action.bind_ok hw, Renaming.renameIntroduced, Action.get_bind,
    hcopy.tree.isStamped? hclean]
  rfl

/-- Holds `(define (k x) (list (quote (k)) . k))`, where `k` is a transformer without rules. -/
def mentioning : Store :=
  { Store.empty with
    pairs := #[⟨.name "k", .null⟩, ⟨.pair 0, .null⟩, ⟨.name "quote", .pair 1⟩,
      ⟨.pair 2, .name "k"⟩, ⟨.name "list", .pair 3⟩, ⟨.pair 4, .null⟩, ⟨.name "x", .null⟩,
      ⟨.name "k", .pair 6⟩, ⟨.pair 7, .pair 5⟩, ⟨.name "define", .pair 8⟩]
    frames := #[⟨[], [("k", ⟨"k", [], []⟩)]⟩] }

theorem tree_mentioning : mentioning.Tree (.pair 9) := by
  have hname : ∀ x : String, mentioning.Tree (.name x) := fun x => .leaf nofun nofun
  have hnull : mentioning.Tree .null := .leaf nofun nofun
  have hk : mentioning.Tree (.pair 0) := .pair (by decide) (hname _) hnull
  have hquote : mentioning.Tree (.pair 2) :=
    .pair (by decide) (hname _) (.pair (by decide) hk hnull)
  have hbody : mentioning.Tree (.pair 4) :=
    .pair (by decide) (hname _) (.pair (by decide) hquote (hname _))
  have hheader : mentioning.Tree (.pair 7) :=
    .pair (by decide) (hname _) (.pair (by decide) (hname _) hnull)
  exact .pair (by decide) (hname _) (.pair (by decide) hheader (.pair (by decide) hbody hnull))

theorem clean_mentioning : mentioning.Clean (.pair 9) := by
  have hnull : ∀ s : Store, s.Clean .null := fun s => clean_constant rfl
  simp [clean_pair, clean_name, hnull, mentioning, pairAt]

theorem nested_mentioning : mentioning.Nested (maxDepth + 1) (.pair 9) := by
  have hname : ∀ n x, mentioning.Nested n (.name x) := fun n x => .leaf nofun nofun
  have hnull : ∀ n, mentioning.Nested n .null := fun n => .leaf nofun nofun
  have hk : ∀ n, mentioning.Nested (n + 1) (.pair 0) := fun n => .pair (hname _ _) (hnull _)
  have hquote : ∀ n, mentioning.Nested (n + 2) (.pair 2) := fun n =>
    .pair (hname _ _) (.pair (hk _) (hnull _))
  have hbody : ∀ n, mentioning.Nested (n + 3) (.pair 4) := fun n =>
    .pair (hname _ _) (.pair (hquote _) (hname _ _))
  have hheader : ∀ n, mentioning.Nested (n + 1) (.pair 7) := fun n =>
    .pair (hname _ _) (.pair (hname _ _) (hnull _))
  exact .pair (hname _ _) (.pair (hheader 255) (.pair (hbody 253) (hnull _)))

theorem headed_mentioning : mentioning.Headed (Idle ⟨0, []⟩ mentioning) .code (.pair 9) := by
  have hidle : ∀ (keyword : String) (vs : List Value), mentioning.transformer? keyword [0] = none →
      keyword ∉ ["define-syntax", "let-syntax", "letrec-syntax"] → ∀ x more,
      .name keyword :: vs = .symbol x :: more → Idle ⟨0, []⟩ mentioning x := by
    rintro keyword vs hunbound hinstalls x more ⟨⟩
    exact ⟨hunbound, hinstalls⟩
  have hname : ∀ x, mentioning.Headed (Idle ⟨0, []⟩ mentioning) .code (.name x) :=
    fun x => .atom nofun
  have hquoted : mentioning.Chain (.pair 2) [.name "quote", .pair 0] .null :=
    splitList?_eq_some.mp rfl
  have hquote : mentioning.Headed (Idle ⟨0, []⟩ mentioning) .code (.pair 2) :=
    .list hquoted (hidle _ _ rfl (by decide)) (fun w hw => nomatch hw) fun w hw => nomatch hw
  have hbody : mentioning.Chain (.pair 4) [.name "list", .pair 2] (.name "k") :=
    splitList?_eq_some.mp rfl
  have hlist : mentioning.Headed (Idle ⟨0, []⟩ mentioning) .code (.pair 4) :=
    .list hbody (hidle _ _ rfl (by decide))
      (List.forall_mem_cons.mpr ⟨hname _, List.forall_mem_singleton.mpr hquote⟩)
      fun w hw => nomatch hw
  have hwhole : mentioning.Chain (.pair 9) [.name "define", .pair 7, .pair 4] .null :=
    splitList?_eq_some.mp rfl
  exact .list hwhole (hidle _ _ rfl (by decide)) (List.forall_mem_singleton.mpr hlist)
    fun w hw => nomatch hw

/-- The name of a transformer may be the target of a definition, quoted data and an improper
tail. -/
theorem expandToplevel_copies_mentioning :
    mentioning.transformer? "k" [0] = some ⟨"k", [], []⟩ ∧
      ∃ w t, expandToplevel ⟨0, []⟩ (.pair 9) mentioning = .ok w t ∧
        t.equal? (.pair 9) w = some true ∧ t.frames = mentioning.frames :=
  ⟨rfl, expandToplevel_copies tree_mentioning clean_mentioning nested_mentioning headed_mentioning⟩

end Expansion

end HygienicScheme
