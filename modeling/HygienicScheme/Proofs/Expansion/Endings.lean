import HygienicScheme.Proofs.Expansion.Calls

/-!
# Expansion ends

A call of the expander comes to an end if the calls that it makes do: matching, filling in templates
and defining transformers end by themselves on acyclic values, and a template needs no more fuel
than it is high. As no sequence of calls goes on forever, all calls come to an end, and so does the
expansion of a whole form.
-/
namespace HygienicScheme.Expansion

open Store (Tree)
open Reference (innerLevel)

variable {env : Environment} {room level fuel n : Nat} {v tail : Value} {items : List Value}
  {s : Store} {c d : Call} {a : Address}

def Call.Ends (env : Environment) : Call → Prop
  | .form room v s => (expand env room v).Ends s
  | .template room level v s =>
    ∀ n fuel, s.Within n v → n < fuel → (expandTemplate env room fuel level v).Ends s

theorem form_ends (hc : (Call.form room v s).Ready)
    (h : ∀ d, Calls env (.form room v s) d → d.Ends env) : (expand env room v).Ends s := by
  obtain ⟨hs, hv⟩ := hc
  by_cases hpair : ∃ a, v = .pair a
  · obtain ⟨a, rfl⟩ := hpair
    cases room with
    | zero =>
      rw [expand_zero]
      exact .throw rfl
    | succ room =>
      obtain ⟨items, tail, hchain⟩ := hv.chain
      have hsplit := Store.splitList?_eq_some.mpr hchain
      have hitems := hv.items hchain
      have hoperands : ∀ w ∈ items.drop 1, s.Tree w := fun w hw =>
        hitems w (List.mem_of_mem_drop hw)
      refine .of_eq (expand_list hsplit) ?_
      cases hhead : headOf env items s with
      | use m =>
        refine (use_ends m _).bind fun w t hw => ?_
        exact h _ (.use (.intro hsplit hhead hw))
      | quote => exact .pure _
      | quasiquote =>
        dsimp only
        split
        · refine Action.Ends.bind ?_ fun _ _ _ => .lift
          have hbound := s.cells_lt_walkBound
          exact h _ (.quasiquote hsplit hhead) s.cells _ (hitems _ (by simp)).within (by omega)
        · exact .pure _
      | binding =>
        refine Action.Ends.bind (.mapM fun before w after ws t hafter hbefore => ?_) fun _ _ _ =>
          .lift
        exact h _ (.item hsplit (by rw [hhead]; exact hafter) hbefore)
      | defineSyntax => exact (defineSyntax_ends hoperands).bind fun _ _ _ => .pure _
      | letSyntax keyword =>
        refine (letSyntax_ends keyword hs hoperands).bind fun w t hw => ?_
        exact h _ (.body hsplit hhead hw)
      | other =>
        refine Action.Ends.bind (.mapM fun before w after ws t hafter hbefore => ?_) fun _ _ _ =>
          .lift
        exact h _ (.item hsplit (by rw [hhead]; exact hafter) hbefore)
  · rw [expand_leaf env room (not_exists.mp hpair)]
    exact .pure _

theorem template_ends (hc : (Call.template room level v s).Ready)
    (h : ∀ d, Calls env (.template room level v s) d → d.Ends env) (hn : s.Within n v)
    (hfuel : n < fuel) : (expandTemplate env room fuel level v).Ends s := by
  obtain ⟨fuel, rfl⟩ := Nat.exists_eq_add_of_le' (Nat.lt_of_le_of_lt (Nat.zero_le n) hfuel)
  cases hform : s.quasiForm? v with
  | some q =>
    obtain ⟨keyword, operand⟩ := q
    refine .of_eq (expandTemplate_form hform) (Action.Ends.bind ?_ fun _ _ _ => .lift)
    have hinner : keyword = .quasiquote ∨ level ≠ 1 →
        (expandTemplate env (room - 1) fuel (innerLevel keyword level) operand).Ends s := by
      intro hlevel
      have hcall : Calls env (.template room level v s) _ := .inner hform hlevel
      obtain ⟨k, rfl, hk⟩ := hcall.lower hc hn
      exact h _ hcall k fuel hk (by omega)
    by_cases hkeyword : keyword = .quasiquote
    · rw [if_pos hkeyword]
      simpa [innerLevel, hkeyword] using hinner (.inl hkeyword)
    · rw [if_neg hkeyword]
      by_cases hlevel : level = 1
      · subst hlevel
        rw [if_pos rfl]
        exact h _ (.code hform hkeyword)
      · rw [if_neg hlevel]
        simpa [innerLevel, hkeyword] using hinner (.inr hlevel)
  | none =>
    cases v with
    | pair a =>
      refine .of_eq (expandTemplate_pair hform) ?_
      have hcar : Calls env (.template room level (.pair a) s) _ := .car hform
      obtain ⟨k, rfl, hk⟩ := hcar.lower hc hn
      refine Action.Ends.bind (h _ hcar k fuel hk (by omega)) fun w t hw => ?_
      have hcdr : Calls env (.template room level (.pair a) s) _ := .cdr hform hw
      obtain ⟨k, hk, hbelow⟩ := hcdr.lower hc hn
      exact Action.Ends.bind (h _ hcdr k fuel hbelow (by omega)) fun _ _ _ => .lift
    | vector a =>
      refine .of_eq expandTemplate_vector ?_
      refine Action.Ends.bind (.mapM fun before w after ws t hafter hbefore => ?_) fun _ _ _ =>
        .lift
      have hitem : Calls env (.template room level (.vector a) s) _ := .vectorItem hafter hbefore
      obtain ⟨k, rfl, hbelow⟩ := hitem.lower hc hn
      exact h _ hitem k fuel hbelow (by omega)
    | _ =>
      rw [expandTemplate_leaf (by simp) (by simp)]
      exact .pure _

theorem Call.Ends.of_calls (hc : c.Ready) (h : ∀ d, Calls env c d → d.Ends env) : c.Ends env := by
  cases c with
  | form room v s => exact form_ends hc h
  | template room level v s => exact fun n fuel hn hfuel => template_ends hc h hn hfuel

theorem Call.Ready.ends (hc : c.Ready) : c.Ends env := by
  have hfinishes : Finishes env c := hc.finishes
  induction hfinishes with
  | intro c _ ih => exact .of_calls hc fun d hd => ih d hd (hd.ready hc)

theorem Call.Ready.of_reached (hc : c.Ready) (h : Relation.ReflTransGen (Calls env) c d) :
    d.Ready := by
  induction h with
  | refl => exact hc
  | tail _ hcall ih => exact hcall.ready ih

theorem equal?_constant {constant : Value} (h : constant.isConstant) :
    ∃ b, s.equal? constant v = some b := by
  obtain ⟨m, hm⟩ := s.exists_walkBound
  rw [Store.equal?, hm]
  cases constant with
  | symbol x | pair a | vector a => cases h
  | string x => cases v <;> exact ⟨_, rfl⟩
  | _ => exact ⟨_, rfl⟩

/-- The transformer was compiled from an acyclic specification. -/
def Specified (m : Transformer) : Prop :=
  ∃ s name spec, Store.Tree s spec ∧ SyntaxRules.define s name spec = .ok m

theorem compiled_of_specified (h : ∀ f, ∀ m ∈ (s.frameAt f).transformers, Specified m.2) :
    s.Compiled := by
  intro f m hm
  obtain ⟨u, name, spec, -, hdefine⟩ := h f m hm
  exact (SyntaxRules.define_ok hdefine).2.isConstant

def Call.start (v : Value) (s : Store) : Call := .form (maxDepth + 1) v (started s)

/-- The expansion of a whole form comes to an end, and so does all that it is made of. -/
structure Terminates (env : Environment) (s : Store) (v : Value) : Prop where
  /-- A form comes of it, itself acyclic, or an error to report. -/
  outcome : (∃ w t, expandToplevel env v s = .ok w t ∧ t.Tree w) ∨
    ∃ e t, expandToplevel env v s = .error e t ∧ e.isFatal = false
  /-- No sequence of calls goes on forever. -/
  finishes : Finishes env (.start v s)
  ends : ∀ c, Relation.ReflTransGen (Calls env) (.start v s) c → c.Ends env
  /-- The patterns that a use is matched against have nothing in them to walk into. -/
  comparisons : ∀ c, Relation.ReflTransGen (Calls env) (.start v s) c → ∀ name m,
    c.store.transformer? name env.chain = some m → ∀ constant ∈ m.constants, ∀ w,
      ∃ b, c.store.equal? constant w = some b
  /-- No more uses are followed, each found in the expansion of the one before. -/
  uses : ∀ n, UseChain env n (.start v s) → n ≤ maxDepth + 1

/-- Whatever the transformers rewrite their uses to, the expansion of an acyclic form ends. -/
theorem terminates_of_tree (hs : ∀ f, ∀ m ∈ (s.frameAt f).transformers, Specified m.2)
    (hv : s.Tree v) : Terminates env s v := by
  have hcompiled : s.Compiled := compiled_of_specified hs
  have hready : (Call.start v s).Ready :=
    ⟨hcompiled.of_frames rfl, hv.grow (.of_cells_eq rfl rfl)⟩
  refine ⟨?_, hready.finishes, fun c hc => (hready.of_reached hc).ends, ?_, fun n h => h.le_room⟩
  · have hends : (expand env (maxDepth + 1) v).Ends (started s) := hready.ends
    cases hexpand : expand env (maxDepth + 1) v (started s) with
    | ok w t =>
      have hw : t.Tree w := ((Tree.keeps_expand hready.compiled hready.tree).of_ok hexpand).2
      obtain ⟨w', u, hrename⟩ := Renaming.renameIntroduced_tree hw
      have hok : expandToplevel env v s = .ok w' u := by
        rw [expandToplevel_eq, Action.bind_ok hexpand, hrename]
      have hkeeps : Tree.discipline.Keeps (expandToplevel env v) s Tree :=
        ExpansionDiscipline.keeps_expandToplevel trivial hcompiled hv
      exact .inl ⟨w', u, hok, (hkeeps.of_ok hok).2⟩
    | error e t =>
      refine .inr ⟨e, t, ?_, hends e t hexpand⟩
      rw [expandToplevel_eq, Action.bind_error hexpand]
  · intro c hc name m hm constant hconstant w
    obtain ⟨f, -, hmem⟩ := Store.transformer?_mem hm
    exact equal?_constant ((hready.of_reached hc).compiled f _ hmem constant hconstant)

/-! ## A transformer that rewrites its uses to themselves -/

def forever : Transformer where
  name := "forever"
  literals := []
  rules := [{
    number := 1
    pattern := .list (.item .wildcard .done)
    template := .list (.item (.free (.user "forever")) 0 .done)
    depths := [] }]

/-- Holds `(forever)` and `(syntax-rules () ((_) (forever)))`. -/
def repeating : Store :=
  { Store.empty with
    pairs := #[⟨.name "_", .null⟩, ⟨.name "forever", .null⟩, ⟨.pair 1, .null⟩, ⟨.pair 0, .pair 2⟩,
      ⟨.pair 3, .null⟩, ⟨.null, .pair 4⟩, ⟨.name "syntax-rules", .pair 5⟩]
    frames := #[⟨[], [("forever", forever)]⟩] }

theorem define_forever : SyntaxRules.define repeating "forever" (.pair 6) = .ok forever := by
  have htemplate : SyntaxRules.template ⟨repeating, "forever", []⟩ [] repeating.walkBound false 0
      (.pair 1) = .ok forever.rules[0].template := by
    rw [show repeating.walkBound = _ + 1 from rfl, SyntaxRules.template,
      show repeating.splitList? (.pair 1) = some ([.name "forever"], .null) from rfl]
    dsimp only [SyntaxRules.escapedTemplate?]
    rw [SyntaxRules.templateItems_plain (.cons ⟨rfl, rfl⟩ .nil)]
    rfl
  have hrule : SyntaxRules.rule ⟨repeating, "forever", []⟩ 1 (.pair 3) = .ok forever.rules[0] :=
    congrArg (· >>= fun t => (.ok ⟨1, forever.rules[0].pattern, t, []⟩ : Except Error Rule))
      htemplate
  have hrules : SyntaxRules.rules ⟨repeating, "forever", []⟩ 1 [.pair 3] = .ok forever.rules :=
    congrArg (· >>= fun r => (.ok [r] : Except Error (List Rule))) hrule
  exact congrArg (· >>= fun rs => (.ok ⟨"forever", [], rs⟩ : Except Error Transformer)) hrules

theorem tree_repeating : repeating.Tree (.pair 6) := by
  have hname : ∀ x : String, repeating.Tree (.name x) := fun x => .leaf nofun nofun
  have hnull : repeating.Tree .null := .leaf nofun nofun
  have huse : repeating.Tree (.pair 1) := .pair (by decide) (hname _) hnull
  have hpattern : repeating.Tree (.pair 0) := .pair (by decide) (hname _) hnull
  have hrule : repeating.Tree (.pair 3) := .pair (by decide) hpattern (.pair (by decide) huse hnull)
  exact .pair (by decide) (hname _) (.pair (by decide) hnull (.pair (by decide) hrule hnull))

theorem introduce_transformer {use : MacroUse} {x : Symbol} {m : Transformer}
    (h : s.transformer? x.name use.env.chain = some m) : use.introduce s x = x.unstamped := by
  have hkeyword : s.isKeyword use.env x = true := by
    rw [Store.isKeyword, h]
    exact Bool.or_true _
  rw [MacroUse.introduce, hkeyword, Bool.or_true]
  rfl

theorem rewrites_forever (room : Nat) (hm : s.transformer? "forever" env.chain = some forever)
    (ha : s.pairAt a = ⟨.name "forever", .null⟩) :
    ∃ b t, Rewrites env (.form (room + 1) (.pair a) s) (.form room (.pair b) t) ∧
      t.transformer? "forever" env.chain = some forever ∧
      t.pairAt b = ⟨.name "forever", .null⟩ := by
  have hchain : s.Chain (.pair a) [.name "forever"] .null := by
    have h : s.Chain (.pair a) [(s.pairAt a).car] .null := .pair (by rw [ha]; exact .tail nofun)
    rwa [ha] at h
  have hsplit := Store.splitList?_eq_some.mpr hchain
  have hhead : headOf env [.name "forever"] s = .use forever := by
    simp only [headOf, Value.name]
    rw [show (Symbol.user "forever").name = "forever" from rfl, hm]
  have hbindings : Rule.bindings s forever.rules[0] (.pair a) = .ok [] := by
    simp only [forever, List.getElem_cons_zero, Rule.bindings, SyntaxRules.matchPattern, hsplit]
    rfl
  have hmatch : firstMatch? s (.pair a) forever.rules = some (forever.rules[0], []) := by
    change firstMatch? s (.pair a) [forever.rules[0]] = _
    rw [firstMatch?, hbindings]
  have hkept : ∀ t : Store, t.frames = s.frames →
      t.transformer? "forever" env.chain = some forever := fun t ht =>
    (Store.transformer?_congr ht _ _).trans hm
  let counted : Store := { s with uses := min (s.uses + 1) maxUses }
  let t : Store := { counted with pairs := s.pairs.push ⟨.name "forever", .null⟩ }
  have htranscribe : transcribe env forever (.pair a) s = .ok (.pair s.pairs.size) t := by
    rw [transcribe_eq, hmatch]
    change EStateM.Result.ok (Value.pair s.pairs.size) { counted with
      pairs := s.pairs.push ⟨.symbol (MacroUse.introduce ⟨forever, env, s.phase, s.uses⟩ counted
        (.user "forever")), .null⟩ } = _
    rw [introduce_transformer (hkept counted rfl)]
    rfl
  exact ⟨_, t, .intro hsplit hhead htranscribe, hkept t rfl, Store.pairAt_push_size counted _⟩

theorem useChain_forever (hm : s.transformer? "forever" env.chain = some forever)
    (ha : s.pairAt a = ⟨.name "forever", .null⟩) : UseChain env room (.form room (.pair a) s) := by
  induction room generalizing a s with
  | zero => exact .nil _
  | succ room ih =>
    obtain ⟨b, t, hrewrites, ht, hb⟩ := rewrites_forever room hm ha
    exact .cons .refl hrewrites (ih ht hb)

/-- As many uses are followed there as ever are. -/
theorem terminates_of_tree_forever :
    (∀ f, ∀ m ∈ (repeating.frameAt f).transformers, Specified m.2) ∧ repeating.Tree (.pair 1) ∧
      UseChain ⟨0, []⟩ (maxDepth + 1) (.start (.pair 1) repeating) ∧
      Terminates ⟨0, []⟩ repeating (.pair 1) := by
  have hspecified : ∀ f, ∀ m ∈ (repeating.frameAt f).transformers, Specified m.2 := by
    intro f m hm
    have hm : m ∈ [("forever", forever)] := by
      cases f with
      | zero => exact hm
      | succ f => simp [Store.frameAt, repeating] at hm
    obtain rfl := List.mem_singleton.mp hm
    exact ⟨repeating, "forever", .pair 6, tree_repeating, define_forever⟩
  have htree : repeating.Tree (.pair 1) := tree_repeating.cdr.cdr.car.cdr.car
  exact ⟨hspecified, htree, useChain_forever rfl rfl, terminates_of_tree hspecified htree⟩

end HygienicScheme.Expansion
