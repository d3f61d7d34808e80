import HygienicScheme.Proofs.Hygiene.Expanding
import Mathlib.Logic.Equiv.Basic

/-!
# Expansion commutes with renaming

A user may call the identifiers of a form what they like. Where the special forms, the transformers
and their literals keep their names, and so do the free identifiers that transformers bring in, the
expansion of the renamed form is the renamed expansion: the user's identifiers have their new names
and the stamped ones are untouched. In particular no new name, be it one that a transformer uses
for a variable of its own, changes what an identifier refers to.

The law is silent about a form in which a definition of a transformer is rejected. The head of the
definition's specification is compared with a name that is no keyword, so another name there can
make a definition out of what was none.
-/
namespace HygienicScheme

namespace Symbol

variable {π : Equiv.Perm String}

theorem rename_injective : Function.Injective (rename π) := by
  intro x y hxy
  have hstamped : x.isStamped = y.isStamped := by
    rw [← isStamped_rename (π := π) (x := x), hxy, isStamped_rename]
  by_cases hx : x.isStamped
  · rwa [rename_of_stamped hx, rename_of_stamped (hstamped ▸ hx)] at hxy
  · have hx' := Bool.eq_false_iff.mpr hx
    rw [rename_of_unstamped hx', rename_of_unstamped (hstamped ▸ hx')] at hxy
    obtain ⟨hname, hphase, huse⟩ := Symbol.mk.inj hxy
    cases x
    cases y
    cases π.injective hname
    cases hphase
    cases huse
    rfl

end Symbol

namespace Expansion

variable {π : Equiv.Perm String} {env : Environment} {s t : Store} {v w : Value}

/-- Every transformer that the environment knows was compiled under the name it has there. -/
def Compiled (env : Environment) (s : Store) : Prop :=
  ∀ f ∈ env.chain, ∀ entry ∈ (s.frameAt f).transformers,
    ∃ store spec, SyntaxRules.define store entry.1 spec = .ok entry.2

/-- When the form is expanded, a stamped identifier of this name loses its stamp. -/
def LosesStamp (env : Environment) (s : Store) (v : Value) (name : String) : Prop :=
  ∃ expanded result s₁ s₂, expand env (maxDepth + 1) v (started s) = .ok expanded s₁ ∧
    Renaming.renameIntroduced expanded s₁ = .ok result s₂ ∧ s₂.Unstamps expanded result name

theorem sameMacros (hcore : FixesCore π) (hphase : s.phase = t.phase)
    (hroot : env.root.frame < s.frames.size) (hcompiled : Compiled env s)
    (htables : ∀ f ∈ env.chain, (t.frameAt f).transformers = (s.frameAt f).transformers)
    (hfixed : ∀ name m, s.transformer? name env.chain = some m →
      π name = name ∧ ∀ x ∈ m.literals, π x.name = x.name) :
    SameMacros π env (started s) (started t) where
  stamps := ⟨congrArg (· + 1) hphase, rfl⟩
  root := hroot
  transformer?_eq name := by
    suffices h : ∀ chain : List Address,
        (∀ f ∈ chain, (t.frameAt f).transformers = (s.frameAt f).transformers) →
        (started t).transformer? name chain = (started s).transformer? name chain from
      h env.chain htables
    intro chain hchain
    induction chain with
    | nil => rfl
    | cons f outer ih =>
      obtain ⟨hf, houter⟩ := List.forall_mem_cons.mp hchain
      have hf' : ((started t).frameAt f).transformers = ((started s).frameAt f).transformers := hf
      rw [Store.transformer?, Store.transformer?, hf', ih houter]
  fixed {name m} hm := by
    have hframes : (started s).frames = s.frames := rfl
    have hstarted := Store.transformer?_congr hframes name env.chain
    have hm : s.transformer? name env.chain = some m := hstarted.symm.trans hm
    obtain ⟨hname, hliterals⟩ := hfixed name m hm
    obtain ⟨f, hf, hmem⟩ := Store.transformer?_mem hm
    obtain ⟨store, spec, hdefine⟩ := hcompiled f hf _ hmem
    obtain ⟨hmname, hfits⟩ := SyntaxRules.define_ok hdefine
    refine ⟨hname, hfits.mono fun k hk => ?_⟩
    rcases hk with ⟨x, hx, rfl⟩ | rfl | hk
    · exact hliterals x hx
    · rw [hmname]
      exact hname
    · exact hcore k (List.contains_iff_mem.mp hk)

/-- The expansion of a renamed form is the renamed expansion. -/
theorem expandToplevel_renamed (hcore : FixesCore π) (hphase : s.phase = t.phase)
    (hroot : env.root.frame < s.frames.size) (hcompiled : Compiled env s)
    (htables : ∀ f ∈ env.chain, (t.frameAt f).transformers = (s.frameAt f).transformers)
    (hfixed : ∀ name m, s.transformer? name env.chain = some m →
      π name = name ∧ ∀ x ∈ m.literals, π x.name = x.name)
    (hstamps : ∀ name, LosesStamp env s v name → π name = name)
    (hquiet : ((Action.after (expandToplevel env v s)).frameAt env.root.frame).transformers =
      (s.frameAt env.root.frame).transformers)
    (hform : Renamed π s t v w) :
    (match expandToplevel env v s with
      | .ok r s' => ∃ r' t', expandToplevel env w t = .ok r' t' ∧ Renamed π s' t' r r'
      | .error e _ => Rejection e ∨ ∃ e' t', expandToplevel env w t = .error e' t') ∧
    Function.Injective (Symbol.rename π) := by
  refine ⟨?_, Symbol.rename_injective⟩
  have hmacros := sameMacros hcore hphase hroot hcompiled htables hfixed
  have hstarted : Renamed π (started s) (started t) v w :=
    hform.grow (.of_cells_eq rfl rfl) (.of_cells_eq rfl rfl)
  have hrun : ∀ u s, expandToplevel env u s =
      (expand env (maxDepth + 1) u >>= Renaming.renameIntroduced) (started s) := fun _ _ => rfl
  rw [hrun] at hquiet
  rw [hrun, hrun]
  simp only [bind, EStateM.bind] at hquiet ⊢
  cases (agree hcore env (maxDepth + 1)).1 hmacros hstarted with
  | rejects he hv =>
    rw [hv]
    exact .inl he
  | installs hinstalls =>
    -- What is installed stays, so the frame would not be what it was.
    have hcount : (started s).installed env = s.installed env := rfl
    have hend := congrArg List.length hquiet
    cases hv : expand env (maxDepth + 1) v (started s) with
    | error e s₁ =>
      rw [hv] at hinstalls hend
      exact absurd hend (Nat.ne_of_gt hinstalls)
    | ok e s₁ =>
      rw [hv] at hinstalls hend
      have hlater := (Renaming.expanding_renameIntroduced e s₁).installed_le env
      exact absurd hend (Nat.ne_of_gt (Nat.lt_of_lt_of_le hinstalls hlater))
  | same hsame =>
    cases hv : expand env (maxDepth + 1) v (started s) with
    | error e s₁ =>
      rw [hv] at hsame
      obtain ⟨e', t₁, hw⟩ := hsame.of_error
      rw [hw]
      exact .inr ⟨e', t₁, rfl⟩
    | ok e s₁ =>
      rw [hv] at hsame
      obtain ⟨e', t₁, hw, -, hexpanded⟩ := hsame.of_ok
      have hsettled := Renaming.renameIntroduced_same hcore hexpanded
      rw [hw]
      dsimp only
      cases hr : Renaming.renameIntroduced e s₁ with
      | error f s₂ =>
        rw [hr] at hsettled
        exact .inr hsettled.of_error
      | ok r s₂ =>
        rw [hr] at hsettled
        obtain ⟨r', t₂, hr', -, hresult⟩ := hsettled.of_ok
        -- Only identifiers that lose a stamp come out under the name that the template gave them.
        have hlost : ∀ name, s₂.Unstamps e r name → π name = name := fun name hname =>
          hstamps name ⟨e, r, s₁, s₂, hv, hr, hname⟩
        exact ⟨r', t₂, hr', hresult hlost⟩

section Examples

def shadow : Transformer where
  name := "shadow"
  literals := []
  rules := [{
    number := 1
    pattern := .list (.item .wildcard (.item (.variable (.user "e")) .done))
    template := .list (.item (.free (.user "lambda")) 0
      (.item (.list (.item (.free (.user "temp")) 0 .done)) 0
        (.item (.variable (.user "e")) 0 .done)))
    depths := [(.user "e", 0)] }]

/-- Holds the specification of the transformer at its first pair. -/
def shadowSource : Store :=
  { Store.empty with
    pairs := #[⟨.name "syntax-rules", .pair 1⟩, ⟨.null, .pair 2⟩, ⟨.pair 3, .null⟩,
      ⟨.pair 5, .pair 4⟩, ⟨.pair 7, .null⟩, ⟨.name "_", .pair 6⟩, ⟨.name "e", .null⟩,
      ⟨.name "lambda", .pair 8⟩, ⟨.pair 10, .pair 9⟩, ⟨.name "e", .null⟩, ⟨.name "temp", .null⟩] }

theorem define_shadow : SyntaxRules.define shadowSource "shadow" (.pair 0) = .ok shadow := by
  have hparams : SyntaxRules.template ⟨shadowSource, "shadow", []⟩ [(.user "e", 0)] 168 false 0
      (.pair 10) = .ok (.list (.item (.free (.user "temp")) 0 .done)) := by
    rw [show 168 = 167 + 1 from rfl, SyntaxRules.template,
      show shadowSource.splitList? (.pair 10) = some ([.name "temp"], .null) from rfl]
    dsimp only [SyntaxRules.escapedTemplate?]
    rw [SyntaxRules.templateItems_plain (.cons ⟨rfl, rfl⟩ .nil)]
    rfl
  have htemplate : SyntaxRules.template ⟨shadowSource, "shadow", []⟩ [(.user "e", 0)]
      shadowSource.walkBound false 0 (.pair 7) =
      .ok (.list (.item (.free (.user "lambda")) 0
        (.item (.list (.item (.free (.user "temp")) 0 .done)) 0
          (.item (.variable (.user "e")) 0 .done)))) := by
    rw [show shadowSource.walkBound = 168 + 1 from rfl, SyntaxRules.template,
      show shadowSource.splitList? (.pair 7) =
        some ([.name "lambda", .pair 10, .name "e"], .null) from rfl]
    dsimp only [SyntaxRules.escapedTemplate?]
    rw [SyntaxRules.templateItems_plain
      (.cons ⟨rfl, rfl⟩ (.cons ⟨rfl, hparams⟩ (.cons ⟨rfl, rfl⟩ .nil)))]
    rfl
  have hrule : SyntaxRules.rule ⟨shadowSource, "shadow", []⟩ 1 (.pair 3) = .ok shadow.rules[0] :=
    congrArg (· >>= fun t => (.ok ⟨1, shadow.rules[0].pattern, t, [(.user "e", 0)]⟩ :
      Except Error Rule)) htemplate
  have hrules : SyntaxRules.rules ⟨shadowSource, "shadow", []⟩ 1 [.pair 3] = .ok shadow.rules :=
    congrArg (· >>= fun r => (.ok [r] : Except Error (List Rule))) hrule
  exact congrArg (· >>= fun rs => (.ok ⟨"shadow", [], rs⟩ : Except Error Transformer)) hrules

/-- Holds `(shadow x)` and `(shadow temp)` beside the transformer. -/
def shadowUse : Store :=
  { Store.empty with
    pairs := #[⟨.name "shadow", .pair 1⟩, ⟨.name "x", .null⟩, ⟨.name "shadow", .pair 3⟩,
      ⟨.name "temp", .null⟩]
    frames := #[⟨[], [("shadow", shadow)]⟩] }

def shadowTemp : Symbol := (Symbol.user "temp").stamp 1 0

/-- Holds `(lambda (temp) x)` with a stamped `temp`, as the transformer brings it. -/
def shadowBrought : Store :=
  { started shadowUse with
    pairs := shadowUse.pairs ++ #[⟨.symbol shadowTemp, .null⟩, ⟨.name "x", .null⟩,
      ⟨.pair 4, .pair 5⟩, ⟨.name "lambda", .pair 6⟩]
    uses := 1 }

/-- Holds the same form, once more expanded. -/
def shadowExpanded : Store :=
  { shadowBrought with
    pairs := shadowBrought.pairs ++ #[⟨.name "x", .null⟩, ⟨.pair 4, .pair 8⟩,
      ⟨.name "lambda", .pair 9⟩] }

/-- Holds the same form, with its stamps settled. -/
def shadowSettled : Store :=
  { shadowExpanded with
    pairs := shadowExpanded.pairs ++ #[⟨.symbol shadowTemp, .null⟩, ⟨.name "x", .null⟩,
      ⟨.pair 11, .pair 12⟩, ⟨.name "lambda", .pair 13⟩] }

theorem expand_shadowUse : expand ⟨0, []⟩ (maxDepth + 1) (.pair 0) (started shadowUse) =
    .ok (.pair 10) shadowExpanded := by
  have huse : (started shadowUse).splitList? (.pair 0) =
      some ([.name "shadow", .name "x"], .null) := rfl
  have hbrought : shadowBrought.splitList? (.pair 7) =
      some ([.name "lambda", .pair 4, .name "x"], .null) := rfl
  have htranscribe : transcribe ⟨0, []⟩ shadow (.pair 0) (started shadowUse) =
      .ok (.pair 7) shadowBrought := rfl
  have hbody : expand ⟨0, []⟩ maxDepth (.pair 7) shadowBrought = .ok (.pair 10) shadowExpanded := by
    rw [maxDepth, expand_list hbrought]
    change EStateM.bind (List.mapM _ [Value.name "x"]) _ shadowBrought = _
    rw [List.mapM_cons, List.mapM_nil, expand_leaf _ _ (by simp [Value.name])]
    rfl
  rw [expand_list huse]
  change EStateM.bind (transcribe ⟨0, []⟩ shadow (.pair 0)) _ _ = _
  rw [EStateM.bind, htranscribe]
  exact hbody

theorem settle_shadowUse : Renaming.renameIntroduced (.pair 10) shadowExpanded =
    .ok (.pair 14) shadowSettled := rfl

theorem not_losesStamp_shadowUse (name : String) :
    ¬ LosesStamp ⟨0, []⟩ shadowUse (.pair 0) name := by
  rintro ⟨expanded, result, s₁, s₂, hexpand, hsettle, h⟩
  obtain ⟨rfl, rfl⟩ := EStateM.Result.ok.inj (expand_shadowUse.symm.trans hexpand)
  obtain ⟨rfl, rfl⟩ := EStateM.Result.ok.inj (settle_shadowUse.symm.trans hsettle)
  have hsymbol : ∀ x : Symbol, ¬ shadowSettled.Unstamps (.symbol x) (.symbol x) name := by
    intro x h
    cases h with
    | symbol hx hy => exact absurd hx (Bool.eq_false_iff.mp hy)
  have hnull : ¬ shadowSettled.Unstamps .null .null name := nofun
  have hlast : ∀ a b x, shadowSettled.pairAt a = ⟨.symbol x, .null⟩ →
      shadowSettled.pairAt b = ⟨.symbol x, .null⟩ →
      ¬ shadowSettled.Unstamps (.pair a) (.pair b) name := by
    intro a b x ha hb h
    cases h with
    | car _ _ h =>
      rw [ha, hb] at h
      exact hsymbol x h
    | cdr _ _ h =>
      rw [ha, hb] at h
      exact hnull h
  cases h with
  | car _ _ h => exact hsymbol (.user "lambda") h
  | cdr _ _ h =>
    cases (show shadowSettled.Unstamps (.pair 9) (.pair 13) name from h) with
    | car _ _ h => exact hlast 4 11 shadowTemp rfl rfl h
    | cdr _ _ h => exact hlast 8 12 (.user "x") rfl rfl h

theorem expandToplevel_renamed_shadow :
    ∃ r t, expandToplevel ⟨0, []⟩ (.pair 2) shadowUse = .ok r t ∧
      Renamed (Equiv.swap "x" "temp") shadowSettled t (.pair 14) r := by
  have hrun : expandToplevel ⟨0, []⟩ (.pair 0) shadowUse = .ok (.pair 14) shadowSettled := by
    change EStateM.bind (expand ⟨0, []⟩ (maxDepth + 1) (.pair 0)) _ (started shadowUse) = _
    rw [EStateM.bind, expand_shadowUse]
    exact settle_shadowUse
  have hcore : FixesCore (Equiv.swap "x" "temp") := by
    intro k hk
    exact Equiv.swap_apply_of_ne_of_ne (by rintro rfl; revert hk; decide)
      (by rintro rfl; revert hk; decide)
  have hfound : ∀ name m, shadowUse.transformer? name [0] = some m →
      name = "shadow" ∧ m = shadow := by
    intro name m h
    obtain ⟨f, hf, hm⟩ := Store.transformer?_mem h
    obtain rfl := List.mem_singleton.mp hf
    cases List.mem_singleton.mp hm
    exact ⟨rfl, rfl⟩
  have hx : Renamed (Equiv.swap "x" "temp") shadowUse shadowUse (.name "x") (.name "temp") := by
    have h : Renamed (Equiv.swap "x" "temp") shadowUse shadowUse (.name "x") _ :=
      .symbol (.user "x")
    rwa [Symbol.rename_of_unstamped rfl, Symbol.user, Equiv.swap_apply_left] at h
  have hshadow : Equiv.swap "x" "temp" "shadow" = "shadow" :=
    Equiv.swap_apply_of_ne_of_ne (by decide) (by decide)
  have hform : Renamed (Equiv.swap "x" "temp") shadowUse shadowUse (.pair 0) (.pair 2) :=
    .pair (by decide) (by decide) (renamed_name hshadow)
      (.pair (by decide) (by decide) hx (.constant rfl))
  have hcompiled : Compiled ⟨0, []⟩ shadowUse := by
    intro f hf entry hentry
    obtain rfl := List.mem_singleton.mp hf
    obtain rfl := List.mem_singleton.mp hentry
    exact ⟨shadowSource, .pair 0, define_shadow⟩
  have hfixed : ∀ name m, shadowUse.transformer? name [0] = some m →
      Equiv.swap "x" "temp" name = name ∧
        ∀ x ∈ m.literals, Equiv.swap "x" "temp" x.name = x.name := by
    intro name m h
    obtain ⟨rfl, rfl⟩ := hfound name m h
    exact ⟨hshadow, by simp [shadow]⟩
  have hlaw := expandToplevel_renamed hcore (t := shadowUse) rfl (by decide) hcompiled
    (fun _ _ => rfl) hfixed (fun name hname => absurd hname (not_losesStamp_shadowUse name))
    (by rw [hrun]; rfl) hform
  rw [hrun] at hlaw
  exact hlaw.1

/-- Holds `(define-syntax foo (bar () ((_) 1)))` and, from its tenth pair on, the same form with
`syntax-rules` in the place of `bar`. -/
def rejected : Store :=
  { Store.empty with
    pairs := #[⟨.name "define-syntax", .pair 1⟩, ⟨.name "foo", .pair 2⟩, ⟨.pair 3, .null⟩,
      ⟨.name "bar", .pair 4⟩, ⟨.null, .pair 5⟩, ⟨.pair 6, .null⟩, ⟨.pair 7, .pair 8⟩,
      ⟨.name "_", .null⟩, ⟨.int 1, .null⟩, ⟨.name "define-syntax", .pair 10⟩,
      ⟨.name "foo", .pair 11⟩, ⟨.pair 12, .null⟩, ⟨.name "syntax-rules", .pair 4⟩]
    frames := #[⟨[], []⟩] }

theorem expand_rejected : ∃ e, expand ⟨0, []⟩ (maxDepth + 1) (.pair 0) (started rejected) =
    .error e (started rejected) := by
  have hlist : (started rejected).splitList? (.pair 0) =
      some ([.name "define-syntax", .name "foo", .pair 3], .null) := rfl
  rw [expand_list hlist]
  exact ⟨_, rfl⟩

/-- About rejected definitions the law has to be silent: this form installs nothing and brings
in nothing, and it fails, but its renaming succeeds. -/
theorem expandToplevel_renamed_rejected :
    FixesCore (Equiv.swap "bar" "syntax-rules") ∧
    (∀ name, rejected.transformer? name [0] = none) ∧
    rejected.isStamped? (.pair 0) = some false ∧
    Renamed (Equiv.swap "bar" "syntax-rules") rejected rejected (.pair 0) (.pair 9) ∧
    (∀ name, ¬ LosesStamp ⟨0, []⟩ rejected (.pair 0) name) ∧
    (∃ e s', expandToplevel ⟨0, []⟩ (.pair 0) rejected = .error e s' ∧
      s'.frames = rejected.frames) ∧
    ∃ r s', expandToplevel ⟨0, []⟩ (.pair 9) rejected = .ok r s' := by
  obtain ⟨e, he⟩ := expand_rejected
  have hswap : ∀ k, k ≠ "bar" → k ≠ "syntax-rules" → Equiv.swap "bar" "syntax-rules" k = k :=
    fun _ => Equiv.swap_apply_of_ne_of_ne
  refine ⟨?_, fun _ => rfl, rfl, ?_, ?_, ⟨e, started rejected, ?_, rfl⟩, ?_⟩
  · intro k hk
    exact hswap k (by rintro rfl; revert hk; decide) (by rintro rfl; revert hk; decide)
  · -- The renaming exchanges `bar` for `syntax-rules`, which makes the definition a legal one.
    have hbar : Renamed (Equiv.swap "bar" "syntax-rules") rejected rejected (.name "bar")
        (.name "syntax-rules") := by
      have h : Renamed (Equiv.swap "bar" "syntax-rules") rejected rejected (.name "bar") _ :=
        .symbol (.user "bar")
      rwa [Symbol.rename_of_unstamped rfl, Symbol.user, Equiv.swap_apply_left] at h
    have hpair : ∀ {a b}, a < 13 → b < 13 →
        Renamed (Equiv.swap "bar" "syntax-rules") rejected rejected (rejected.pairAt a).car
          (rejected.pairAt b).car →
        Renamed (Equiv.swap "bar" "syntax-rules") rejected rejected (rejected.pairAt a).cdr
          (rejected.pairAt b).cdr →
        Renamed (Equiv.swap "bar" "syntax-rules") rejected rejected (.pair a) (.pair b) :=
      fun ha hb => .pair ha hb
    have hrule := hpair (a := 6) (b := 6) (by decide) (by decide)
      (hpair (by decide) (by decide) (renamed_name (hswap "_" (by decide) (by decide)))
        (.constant rfl))
      (hpair (by decide) (by decide) (.constant rfl) (.constant rfl))
    have hspec := hpair (a := 3) (b := 12) (by decide) (by decide) hbar
      (hpair (by decide) (by decide) (.constant rfl)
        (hpair (by decide) (by decide) hrule (.constant rfl)))
    exact hpair (by decide) (by decide)
      (renamed_name (hswap "define-syntax" (by decide) (by decide)))
      (hpair (by decide) (by decide) (renamed_name (hswap "foo" (by decide) (by decide)))
        (hpair (by decide) (by decide) hspec (.constant rfl)))
  · rintro name ⟨expanded, result, s₁, s₂, hexpand, -⟩
    rw [he] at hexpand
    cases hexpand
  · change EStateM.bind (expand ⟨0, []⟩ (maxDepth + 1) (.pair 0)) _ (started rejected) = _
    rw [EStateM.bind, he]
  · have hlist : (started rejected).splitList? (.pair 9) =
        some ([.name "define-syntax", .name "foo", .pair 12], .null) := rfl
    change ∃ r s', EStateM.bind (expand ⟨0, []⟩ (maxDepth + 1) (.pair 9)) _ (started rejected) =
      .ok r s'
    rw [EStateM.bind, expand_list hlist]
    exact ⟨_, _, rfl⟩

end Examples

end Expansion

end HygienicScheme
