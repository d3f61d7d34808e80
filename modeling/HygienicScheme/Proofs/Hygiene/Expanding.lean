import HygienicScheme.Proofs.Hygiene.Settling
import HygienicScheme.Proofs.Hygiene.Transcription

/-!
# Expanding on both sides

A form and its renaming are expanded in step. Their heads mean the same, the same rules match, and
what the templates bring is the same on both sides. Only definitions of transformers are out of
reach of the law, so the runs agree up to what the left one installs or rejects.
-/
namespace HygienicScheme

namespace Expansion

variable {π : Equiv.Perm String} {env : Environment} {s t : Store} {v w tail tail' : Value}
  {items items' : List Value} {n : Nat}

theorem rename_coreKeyword (hcore : FixesCore π) {x : Symbol} (hx : isCoreKeyword x.name) :
    (x.rename π).name = x.name :=
  (Symbol.name_rename_eq (hcore _ (List.contains_iff_mem.mp hx))).mpr rfl

theorem isCoreKeyword_rename (hcore : FixesCore π) (x : Symbol) :
    isCoreKeyword (x.rename π).name = isCoreKeyword x.name := by
  rw [Bool.eq_iff_iff]
  constructor
  · intro h
    rwa [(Symbol.name_rename_eq (x := x) (hcore _ (List.contains_iff_mem.mp h))).mp rfl]
  · intro h
    rwa [rename_coreKeyword hcore h]

theorem coreHead_of_not_core {name : String} (h : ¬ isCoreKeyword name) (count : Nat) :
    coreHead name count = .other := by
  simp only [isCoreKeyword, coreKeywords, List.contains_iff_mem, List.mem_cons, not_or,
    List.not_mem_nil, not_false_eq_true, and_true] at h
  simp [coreHead, h]

theorem coreHead_rename (hcore : FixesCore π) (x : Symbol) (count : Nat) :
    coreHead (x.rename π).name count = coreHead x.name count := by
  by_cases hx : isCoreKeyword x.name
  · rw [rename_coreKeyword hcore hx]
  · have hx' : ¬ isCoreKeyword (x.rename π).name := by rwa [isCoreKeyword_rename hcore]
    rw [coreHead_of_not_core hx, coreHead_of_not_core hx']

theorem headOf_eq (hcore : FixesCore π) (h : SameMacros π env s t)
    (hitems : List.Forall₂ (Renamed π s t) items items') :
    headOf env items' t = headOf env items s := by
  cases hitems with
  | nil => rfl
  | @cons v w _ _ hvw hmore =>
    cases hvw with
    | symbol x =>
      have hlookup : t.transformer? (x.rename π).name env.chain =
          s.transformer? x.name env.chain := by
        by_cases hx : x.isStamped
        · rw [Symbol.rename_of_stamped hx, h.transformer?_eq]
        · rw [Symbol.rename_of_unstamped (Bool.eq_false_iff.mpr hx), h.transformer?_rename]
      simp only [headOf, hlookup, Symbol.isStamped_rename, List.length_cons, hmore.length_eq,
        coreHead_rename hcore]
    | constant h => cases v <;> first | rfl | cases h
    | _ => rfl

theorem nextUse_same (s t : Store) (h : s.phase = t.phase ∧ s.uses = t.uses) :
    Same (fun _ _ p q => p = (s.phase, s.uses) ∧ q = p) s t (nextUse s) (nextUse t) := by
  refine .ok ⟨.of_cells_eq rfl rfl, .of_cells_eq rfl rfl, rfl, rfl, fun _ => ?_⟩ ⟨rfl, ?_⟩
  · exact ⟨h.1, congrArg (fun n => min (n + 1) maxUses) h.2⟩
  · exact Prod.ext h.1.symm h.2.symm

theorem transcribe_same (hcore : FixesCore π) (hmacros : SameMacros π env s t) {m : Transformer}
    (hm : m.Fits fun k => π k = k) (h : Renamed π s t v w) :
    Same (Renamed π) s t (transcribe env m v s) (transcribe env m w t) := by
  rw [transcribe_eq, transcribe_eq]
  have hmatch := firstMatch?_alike hm.patterns h
  have hmem : ∀ found, firstMatch? s v m.rules = some found → found.1 ∈ m.rules :=
    fun _ hfound => (firstMatch?_mem hfound).1
  generalize firstMatch? s v m.rules = r, firstMatch? t w m.rules = r' at hmatch hmem ⊢
  cases hmatch with
  | none => exact .error
  | @some found found' hfound =>
    obtain ⟨rule, bs⟩ := found
    obtain ⟨rule', cs⟩ := found'
    obtain ⟨rfl, hbs⟩ := hfound
    refine (nextUse_same s t hmacros.stamps).bind fun {s' t' p q} k huse => ?_
    obtain ⟨rfl, rfl⟩ := huse
    have hstamped : (s.phase : Int) ≠ Symbol.userPhase := by
      rw [Symbol.userPhase]
      omega
    exact MacroUse.transcribe_same (u := ⟨m, env, s.phase, s.uses⟩) hcore hstamped hm.literals
      (hm.templates _ (hmem _ rfl)) (hmacros.along k) (hbs.grow k.left k.right)

def Anything : Relation Unit Unit := fun _ _ _ _ => True

theorem installed_install (s : Store) (m : Transformer) (h : env.root.frame < s.frames.size) :
    s.installed env < (s.install env m).installed env := by
  rw [Store.installed, Store.installed, Store.install, Store.frameAt_modifyFrame,
    if_pos ⟨rfl, h⟩]
  exact Nat.lt_succ_self _

theorem defineSyntax_error (env : Environment) (s : Store)
    (h : ¬ ∃ x spec, items = [.symbol x, spec] ∧ tail = .null) :
    ∃ e, defineSyntax env items tail s = .error e s := by
  unfold defineSyntax
  split
  · exact absurd ⟨_, _, rfl, rfl⟩ h
  · exact ⟨_, rfl⟩
  · exact ⟨_, rfl⟩

theorem defineSyntax_agree (hcore : FixesCore π) (hmacros : SameMacros π env s t)
    (hitems : List.Forall₂ (Renamed π s t) items items') (htail : Renamed π s t tail tail') :
    Agree env Anything s t (defineSyntax env items tail s) (defineSyntax env items' tail' t) := by
  by_cases h : ∃ x spec, items = [.symbol x, spec] ∧ tail = .null
  · obtain ⟨x, spec, rfl, rfl⟩ := h
    rw [htail.eq_null]
    rcases hitems with _ | ⟨hx, _ | ⟨hspec, _ | _⟩⟩
    rw [hx.symbol_left]
    simp only [defineSyntax, isCoreKeyword_rename hcore]
    by_cases hkeyword : isCoreKeyword x.name
    · rw [if_pos hkeyword, if_pos hkeyword]
      exact .throw
    · rw [if_neg hkeyword, Action.inspect_bind]
      cases hdefine : SyntaxRules.define s x.name spec with
      | error e => exact .rejects ⟨s, x.name, spec, hdefine⟩ rfl
      | ok m => exact .installs (installed_install s m hmacros.root)
  · have h' : ¬ ∃ y spec', items' = [.symbol y, spec'] ∧ tail' = .null := by
      rintro ⟨y, spec', rfl, rfl⟩
      rcases hitems with _ | ⟨hx, _ | ⟨hspec, _ | _⟩⟩
      obtain ⟨x, rfl, -⟩ := hx.of_symbol
      exact h ⟨x, _, rfl, htail.of_null⟩
    obtain ⟨e, he⟩ := defineSyntax_error env s h
    obtain ⟨e', he'⟩ := defineSyntax_error env t h'
    rw [he, he']
    exact .same .error

theorem installAll_agree (hcore : FixesCore π) (hmacros : SameMacros π env s t)
    (keyword : String) (hitems : List.Forall₂ (Renamed π s t) items items') :
    Agree env Anything s t (installAll env keyword items s) (installAll env keyword items' t) := by
  induction items generalizing s t items' with
  | nil =>
    cases hitems
    exact .pure trivial
  | cons v more ih =>
    cases hitems with
    | @cons _ w _ more' hvw hmore =>
      rw [installAll, installAll, Action.properList?, Action.properList?, Action.inspect_bind,
        Action.inspect_bind]
      have hparts := hvw.properList
      generalize s.properList? v = parts, t.properList? w = parts' at hparts ⊢
      cases hparts with
      | none => exact .same .error
      | some hparts =>
        refine (defineSyntax_agree hcore hmacros hparts (.constant rfl)).bind
          (fun _ => expanding_installAll env keyword more) fun k _ => ?_
        exact ih (hmacros.along k) ((Renamed.stable π).each k.left k.right hmore)

theorem renamed_name {keyword : String} (h : π keyword = keyword) :
    Renamed π s t (.name keyword) (.name keyword) := by
  have hsymbol : Renamed π s t (.name keyword) _ := .symbol (.user keyword)
  rwa [Symbol.rename_user h] at hsymbol

theorem letSyntax_agree (hcore : FixesCore π) (hmacros : SameMacros π env s t)
    (keyword : String) (hitems : List.Forall₂ (Renamed π s t) items items')
    (htail : Renamed π s t tail tail') :
    Agree env (Renamed π) s t (letSyntax env keyword items tail s)
      (letSyntax env keyword items' tail' t) := by
  cases hitems with
  | nil => exact .same .error
  | @cons bindings bindings' body body' hbindings hbody =>
    have hempty : body'.isEmpty = body.isEmpty := by
      cases hbody <;> rfl
    simp only [letSyntax, hempty, htail.isNull_eq]
    by_cases himproper : (body.isEmpty || !tail.isNull) = true
    · rw [if_pos himproper, if_pos himproper]
      exact .throw
    · rw [if_neg himproper, if_neg himproper, Action.properList?, Action.properList?,
        Action.inspect_bind, Action.inspect_bind]
      have hlist := hbindings.properList
      generalize s.properList? bindings = vs, t.properList? bindings' = ws at hlist ⊢
      cases hlist with
      | none => exact .same .error
      | @some vs ws hlist =>
        refine (installAll_agree hcore hmacros keyword hlist).bind ?_
          fun {s' t' _ _} k _ => ?_
        · exact fun _ => (Action.Expanding.lift (Build.expanding_list _)).bind
            fun _ => .lift (Build.expanding_list _)
        · have hlambda := hcore "lambda" (by decide)
          have hnull : Renamed π s' t' .null .null := .constant rfl
          have hthunk := List.Forall₂.cons (renamed_name hlambda)
            (.cons hnull ((Renamed.stable π).each k.left k.right hbody))
          exact .same ((Same.list hthunk).bind fun _ hv => .list (.cons hv .nil))

def FormsAgree (π : Equiv.Perm String) (env : Environment) (room : Nat) : Prop :=
  ∀ {s t v w}, SameMacros π env s t → Renamed π s t v w →
    Agree env (Renamed π) s t (expand env room v s) (expand env room w t)

def TemplatesAgree (π : Equiv.Perm String) (env : Environment) (room : Nat) : Prop :=
  ∀ {n fuel fuel' level s t v w}, SameMacros π env s t → Renamed π s t v w → s.Within n v →
    n < fuel → n < fuel' →
    Agree env (Renamed π) s t (expandTemplate env room fuel level v s)
      (expandTemplate env room fuel' level w t)

theorem leaf_agree {room room' : Nat} (h : Renamed π s t v w) (hv : ∀ a, v ≠ .pair a) :
    Agree env (Renamed π) s t (expand env room v s) (expand env room' w t) := by
  have hw : ∀ b, w ≠ .pair b := by
    rintro b rfl
    cases h with
    | constant h => cases h
    | pair => exact hv _ rfl
  rw [expand_leaf env room hv, expand_leaf env room' hw]
  exact .pure h

theorem formsAgree_zero : FormsAgree π env 0 := by
  intro s t v w _ h
  by_cases hv : ∃ a, v = .pair a
  · obtain ⟨a, rfl⟩ := hv
    cases h with
    | constant h => cases h
    | pair =>
      rw [expand_zero, expand_zero]
      exact .throw
  · exact leaf_agree h fun a ha => hv ⟨a, ha⟩

theorem formsAgree_succ {room : Nat} (hcore : FixesCore π) (hforms : FormsAgree π env room)
    (htemplates : TemplatesAgree π env room) : FormsAgree π env (room + 1) := by
  intro s t v w hmacros h
  by_cases hv : ∃ a, v = .pair a
  · obtain ⟨a, rfl⟩ := hv
    obtain ⟨b, rfl⟩ : ∃ b, w = .pair b := by
      cases h with
      | constant h => cases h
      | pair => exact ⟨_, rfl⟩
    have hexpand := (expanding env room).1
    have hitemsAgree : ∀ {vs ws}, List.Forall₂ (Renamed π s t) vs ws →
        Agree env (Relation.Each (Renamed π)) s t (vs.mapM (fun v => expand env room v) s)
          (ws.mapM (fun w => expand env room w) t) := fun h =>
      Agree.mapM (Renamed.stable π) (Renamed.stable π) hexpand h
        fun k hvw => hforms (hmacros.along k) hvw
    obtain ⟨items, tail, items', tail', hs, ht, hitems, htail⟩ := h.splitList
    -- Both sides take the same case, since related heads mean the same.
    have hhead' := headOf_eq hcore hmacros hitems
    cases hhead : headOf env items s with
    | use m =>
      obtain ⟨x, -, -, hx⟩ := headOf_use hhead
      -- The two uses are filled in alike, and what comes of them is expanded with one room less.
      have hused := transcribe_same hcore hmacros (hmacros.fixed hx).2 h
      rw [expand_list hs, expand_list ht, hhead', hhead]
      exact (Agree.same hused).bind hexpand fun k hv => hforms (hmacros.along k) hv
    | quote =>
      rw [expand_list hs, expand_list ht, hhead', hhead]
      exact .pure h
    | quasiquote =>
      by_cases htwo : ∃ keyword x, items = [keyword, x] ∧ tail = .null
      · obtain ⟨keyword, x, rfl, rfl⟩ := htwo
        obtain rfl := htail.eq_null
        rcases hitems with _ | ⟨hkeyword, _ | ⟨hx, _ | _⟩⟩
        obtain ⟨n, hn, hfuel, hfuel'⟩ := hx.exists_within
        rw [expand_list hs, expand_list ht, hhead', hhead]
        refine (htemplates hmacros hx hn (by omega) (by omega)).bind
          (fun _ => .lift (Build.expanding_list _)) fun k hy => ?_
        exact .same (.list (.cons (hkeyword.grow k.left k.right) (.cons hy .nil)))
      · -- A malformed quasiquotation is malformed on both sides.
        have htwo' : ¬ ∃ keyword y, items' = [keyword, y] ∧ tail' = .null := by
          rintro ⟨keyword, y, rfl, rfl⟩
          rcases hitems with _ | ⟨_, _ | ⟨_, _ | _⟩⟩
          exact htwo ⟨_, _, rfl, htail.of_null⟩
        rw [expand_quasiquote_other hs hhead htwo,
          expand_quasiquote_other ht (hhead'.trans hhead) htwo']
        exact .same (.ok (.refl s t) h)
    | binding =>
      rw [expand_list hs, expand_list ht, hhead', hhead]
      refine (hitemsAgree (List.forall₂_drop 2 hitems)).bind
        (fun _ => .lift (Build.expanding_listWithTail _ _)) fun k hbody => ?_
      exact .same (.listWithTail (List.rel_append
        ((Renamed.stable π).each k.left k.right (List.forall₂_take 2 hitems)) hbody)
        (htail.grow k.left k.right))
    | defineSyntax =>
      rw [expand_list hs, expand_list ht, hhead', hhead]
      exact (defineSyntax_agree hcore hmacros (List.forall₂_drop 1 hitems) htail).bind
        (fun _ => .pure _) fun k _ => .pure (h.grow k.left k.right)
    | letSyntax keyword =>
      rw [expand_list hs, expand_list ht, hhead', hhead]
      exact (letSyntax_agree hcore hmacros keyword (List.forall₂_drop 1 hitems) htail).bind
        hexpand fun k hbody => hforms (hmacros.along k) hbody
    | other =>
      rw [expand_list hs, expand_list ht, hhead', hhead]
      refine (hitemsAgree hitems).bind (fun _ => .lift (Build.expanding_listWithTail _ _))
        fun k hbody => ?_
      exact .same (.listWithTail hbody (htail.grow k.left k.right))
  · exact leaf_agree h fun a ha => hv ⟨a, ha⟩

def TemplatesAgreeFor (π : Equiv.Perm String) (env : Environment) (room fuel : Nat) : Prop :=
  ∀ {n fuel' level s t v w}, SameMacros π env s t → Renamed π s t v w → s.Within n v →
    n < fuel → n < fuel' →
    Agree env (Renamed π) s t (expandTemplate env room fuel level v s)
      (expandTemplate env room fuel' level w t)

section

variable {room fuel fuel' level : Nat}

theorem templateForm_agree (hcore : FixesCore π) (hforms : FormsAgree π env (room - 1))
    (hbelow : TemplatesAgreeFor π env (room - 1) fuel) (hmacros : SameMacros π env s t)
    {keyword : QuasiKeyword} {operand operand' : Value}
    (hs : s.quasiForm? v = some (keyword, operand))
    (ht : t.quasiForm? w = some (keyword, operand')) (hoperand : Renamed π s t operand operand')
    (hn : s.Within n v) (hfuel : n < fuel + 1) (hfuel' : n < fuel' + 1) :
    Agree env (Renamed π) s t (expandTemplate env room (fuel + 1) level v s)
      (expandTemplate env room (fuel' + 1) level w t) := by
  obtain ⟨a, head, rfl, -, hchain⟩ := Store.quasiForm?_chain hs
  cases n with
  | zero => exact absurd rfl (hn.1 _)
  | succ n =>
    have hoperandn := (hn.parts hchain).1 operand (by simp)
    rw [expandTemplate_form hs, expandTemplate_form ht]
    refine Agree.bind (R := Renamed π) ?_ (fun _ => .lift (Build.expanding_list _))
      fun k hx => .same (.list (.cons (renamed_name (QuasiKeyword.fixed hcore))
        (.cons hx .nil)))
    split_ifs
    · exact hbelow hmacros hoperand hoperandn (by omega) (by omega)
    · exact hforms hmacros hoperand
    · exact hbelow hmacros hoperand hoperandn (by omega) (by omega)

theorem templateParts_agree (hbelow : TemplatesAgreeFor π env (room - 1) fuel)
    (hsame : TemplatesAgreeFor π env room fuel) (hmacros : SameMacros π env s t)
    (hs : s.quasiForm? v = none) (ht : t.quasiForm? w = none) (h : Renamed π s t v w)
    (hn : s.Within n v) (hfuel : n < fuel + 1) (hfuel' : n < fuel' + 1) :
    Agree env (Renamed π) s t (expandTemplate env room (fuel + 1) level v s)
      (expandTemplate env room (fuel' + 1) level w t) := by
  cases h with
  | pair ha hb hcar hcdr =>
    cases n with
    | zero => exact absurd rfl (hn.1 _)
    | succ n =>
      rw [expandTemplate_pair hs, expandTemplate_pair ht]
      have hcdrn := hn.2
      refine (hbelow hmacros hcar hn.1 (by omega) (by omega)).bind
        (fun car => ((expanding env room).2 _ _ _).bind
          fun cdr => .lift (Build.expanding_cons car cdr)) fun k hc => ?_
      refine (hsame (hmacros.along k) (hcdr.grow k.left k.right)
        (hcdrn.grow hcdr.tree_left k.left) (by omega) (by omega)).bind
        (fun cdr => .lift (Build.expanding_cons _ cdr)) fun k' hd => ?_
      exact .same (.cons (hc.grow k'.left k'.right) hd)
  | vector ha hb hsize hvw =>
    cases n with
    | zero => exact absurd rfl (hn.2 _)
    | succ n =>
      have hitems := (Renamed.vector ha hb hsize hvw).items
      have hitems' : List.Forall₂ (Below π n s t) _ _ :=
        ((List.forall₂_and_left _ _).mpr ⟨hn, hitems⟩).imp fun _ _ h => ⟨h.2, h.1⟩
      rw [expandTemplate_vector, expandTemplate_vector]
      refine (Agree.mapM (Below.stable π n) (Renamed.stable π)
        (fun v => (expanding env _).2 _ _ v) hitems' fun k h => ?_).bind
        (fun _ => .lift (Build.expanding_vector _)) fun k hvs => .same (.vector hvs)
      exact hbelow (hmacros.along k) h.1 h.2 (by omega) (by omega)
  | constant hv =>
    have hleaf : (∀ a, v ≠ .pair a) ∧ ∀ a, v ≠ .vector a := by
      constructor <;> rintro a rfl <;> cases hv
    rw [expandTemplate_leaf hleaf.1 hleaf.2, expandTemplate_leaf hleaf.1 hleaf.2]
    exact .pure (.constant hv)
  | string hxy =>
    rw [expandTemplate_leaf (by simp) (by simp), expandTemplate_leaf (by simp) (by simp)]
    exact .pure (.string hxy)
  | symbol x =>
    rw [expandTemplate_leaf (by simp) (by simp), expandTemplate_leaf (by simp) (by simp)]
    exact .pure (.symbol x)

end

theorem templatesAgree {room : Nat} (hcore : FixesCore π) (hforms : FormsAgree π env (room - 1))
    (hless : 0 < room → TemplatesAgree π env (room - 1)) : TemplatesAgree π env room := by
  intro n fuel fuel' level s t v w hmacros h hn hfuel hfuel'
  -- The height `n` keeps both sides within their fuel, so neither runs out alone.
  induction fuel generalizing n fuel' level s t v w with
  | zero => exact absurd hfuel (Nat.not_lt_zero n)
  | succ fuel ih =>
    obtain ⟨fuel', rfl⟩ : ∃ k, fuel' = k + 1 := ⟨fuel' - 1, by omega⟩
    have hbelow : TemplatesAgreeFor π env (room - 1) fuel := by
      intro k fuel' level s t v w hmacros h hk hfuel hfuel'
      -- Where no room is left the level below has none either, and the fuel is what falls.
      by_cases hroom : 0 < room
      · exact hless hroom hmacros h hk hfuel hfuel'
      · rw [show room - 1 = room by omega]
        exact ih hmacros h hk hfuel hfuel'
    rcases h.quasiForm_cases hcore with ⟨keyword, operand, operand', hs, ht, hoperand⟩ | ⟨hs, ht⟩
    · exact templateForm_agree hcore hforms hbelow hmacros hs ht hoperand hn hfuel hfuel'
    · exact templateParts_agree hbelow ih hmacros hs ht h hn hfuel hfuel'

theorem agree (hcore : FixesCore π) (env : Environment) (room : Nat) :
    FormsAgree π env room ∧ TemplatesAgree π env room := by
  induction room with
  | zero =>
    exact ⟨formsAgree_zero, templatesAgree hcore formsAgree_zero fun h => absurd h (lt_irrefl 0)⟩
  | succ room ih =>
    exact ⟨formsAgree_succ hcore ih.1 ih.2, templatesAgree hcore ih.1 fun _ => ih.2⟩

end Expansion

end HygienicScheme
