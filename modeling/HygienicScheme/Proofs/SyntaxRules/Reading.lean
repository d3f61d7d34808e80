import HygienicScheme.SyntaxRules.Definition
import HygienicScheme.Proofs.Store.Chains

/-!
# What is read into a rule

The compiler of rules walks a pattern and a template with a bound on its depth. What it makes of
them is told here without the bound, one constructor for each kind of part, so that facts about
compiled rules are proved by induction over the parts.
-/
namespace HygienicScheme

def Value.isConstant : Value → Bool
  | .symbol _ | .pair _ | .vector _ => false
  | _ => true

namespace SyntaxRules

open Store (splitList?_eq_some properList?_eq_some)

theorem ok_of_bind {ε α β : Type} {x : Except ε α} {f : α → Except ε β} {b : β}
    (h : x >>= f = .ok b) : ∃ a, x = .ok a ∧ f a = .ok b := by
  cases x with
  | ok a => exact ⟨a, rfl, h⟩
  | error e => cases h

theorem mem_of_lookup {α β : Type} [BEq α] [LawfulBEq α] {entries : List (α × β)} {key : α} {b : β}
    (h : entries.lookup key = some b) : (key, b) ∈ entries := by
  obtain ⟨before, after, rfl, -⟩ := List.lookup_eq_some_iff.mp h
  exact List.mem_append_right _ List.mem_cons_self

theorem lookup_of_mem {α β : Type} [BEq α] [LawfulBEq α] {entries : List (α × β)}
    (hkeys : (entries.map Prod.fst).Nodup) {entry : α × β} (h : entry ∈ entries) :
    entries.lookup entry.1 = some entry.2 := by
  obtain ⟨before, after, rfl⟩ := List.append_of_mem h
  rw [List.map_append, List.nodup_append] at hkeys
  refine List.lookup_eq_some_iff.mpr ⟨before, after, rfl, fun p hp => ?_⟩
  rw [bne_iff_ne]
  exact (hkeys.2.2 p.1 (List.mem_map_of_mem hp) entry.1 (by simp)).symm

mutual

inductive PatternOf (c : Scope) : Nat → Value → Depths → Pattern → Depths → Prop
  | wildcard {n seen x} (hx : x.name = underscore) : PatternOf c n (.symbol x) seen .wildcard seen
  | literal {n seen x} (hx : c.isLiteral x) : PatternOf c n (.symbol x) seen (.literal x) seen
  | binder {n seen x} (hx : x ∉ seen.map Prod.fst) :
      PatternOf c n (.symbol x) seen (.variable x) (seen ++ [(x, n)])
  | list {n seen seen' a items tail ps} (hchain : c.store.Chain (.pair a) items tail)
      (h : PatternItemsOf c n tail false items seen ps seen') :
      PatternOf c n (.pair a) seen (.list ps) seen'
  | null {n seen} : PatternOf c n .null seen (.list .done) seen
  | vector {n seen seen' a ps}
      (h : PatternItemsOf c n .null false (c.store.vectorAt a).toList seen ps seen') :
      PatternOf c n (.vector a) seen (.vector ps) seen'
  | constant {n seen v} (hv : v.isConstant) (hnull : v ≠ .null) :
      PatternOf c n v seen (.constant v) seen

inductive PatternItemsOf (c : Scope) :
    Nat → Value → Bool → List Value → Depths → PatternSeq → Depths → Prop
  | done {n repeats seen} : PatternItemsOf c n .null repeats [] seen .done seen
  | rest {n tail seen seen' p} (hnull : tail ≠ .null) (h : PatternOf c n tail seen p seen') :
      PatternItemsOf c n tail false [] seen (.rest p) seen'
  | item {n tail repeats v more seen seen' seen'' p ps} (hv : isEllipsis v = false)
      (hnext : ∀ next ∈ more.head?, isEllipsis next = false) (h : PatternOf c n v seen p seen')
      (hmore : PatternItemsOf c n tail repeats more seen' ps seen'') :
      PatternItemsOf c n tail repeats (v :: more) seen (.item p ps) seen''
  | repeated {n tail v dots more seen seen' seen'' p ps} (hv : isEllipsis v = false)
      (hdots : isEllipsis dots) (h : PatternOf c (n + 1) v seen p seen')
      (hmore : PatternItemsOf c n tail true more seen' ps seen'') :
      PatternItemsOf c n tail false (v :: dots :: more) seen (.repeated p ps) seen''

end

mutual

inductive TemplateOf (c : Scope) (depths : Depths) : Bool → Nat → Value → Template → Prop
  | use {escaped n x needed} (hx : depths.lookup x = some needed) (hn : needed ≤ n) :
      TemplateOf c depths escaped n (.symbol x) (.variable x)
  | free {escaped n x} (hx : depths.lookup x = none) :
      TemplateOf c depths escaped n (.symbol x) (.free x)
  | escape {n a head inner t} (hchain : c.store.Chain (.pair a) [head, inner] .null)
      (hhead : isEllipsis head) (h : TemplateOf c depths true n inner t) :
      TemplateOf c depths false n (.pair a) t
  | list {escaped n a items tail ts} (hchain : c.store.Chain (.pair a) items tail)
      (h : TemplateItemsOf c depths escaped n tail items ts) :
      TemplateOf c depths escaped n (.pair a) (.list ts)
  | vector {escaped n a ts}
      (h : TemplateItemsOf c depths escaped n .null (c.store.vectorAt a).toList ts) :
      TemplateOf c depths escaped n (.vector a) (.vector ts)
  | constant {escaped n v} (hv : v.isConstant) : TemplateOf c depths escaped n v (.constant v)

inductive TemplateItemsOf (c : Scope) (depths : Depths) :
    Bool → Nat → Value → List Value → TemplateSeq → Prop
  | done {escaped n} : TemplateItemsOf c depths escaped n .null [] .done
  | tail {escaped n tail t} (hnull : tail ≠ .null) (h : TemplateOf c depths escaped n tail t) :
      TemplateItemsOf c depths escaped n tail [] (.tail t)
  | item {escaped n tail v more k t ts} (hv : escaped = false → isEllipsis v = false)
      (hk : k = if escaped then 0 else ellipsesOf more)
      (h : TemplateOf c depths escaped (n + k) v t)
      (hmore : TemplateItemsOf c depths escaped n tail (more.drop k) ts) :
      TemplateItemsOf c depths escaped n tail (v :: more) (.item t k ts)

end

variable {c : Scope} {tail v : Value} {items : List Value} {seen seen' depths : Depths} {n : Nat}
  {repeats escaped : Bool}

theorem PatternItemsOf.head_not_ellipsis {ps : PatternSeq}
    (h : PatternItemsOf c n tail repeats items seen ps seen') :
    ∀ v ∈ items.head?, isEllipsis v = false := by
  cases h with
  | done | rest => simp
  | item hv | repeated hv => simpa using hv

theorem isNull_iff : v.isNull = true ↔ v = .null := by
  cases v <;> simp [Value.isNull]

theorem patternItemsOf {item : Nat → Value → Depths → Except Error (Pattern × Depths)}
    (hitem : ∀ {n v seen q}, item n v seen = .ok q → PatternOf c n v seen q.1 q.2)
    {q : PatternSeq × Depths} (h : patternItems c item n tail repeats items seen = .ok q) :
    PatternItemsOf c n tail repeats items seen q.1 q.2 := by
  induction repeats, items, seen using patternItems.induct tail generalizing q with
  | case1 repeats seen hnull =>
    rw [patternItems, if_pos hnull] at h
    cases h
    rw [isNull_iff.mp hnull]
    exact .done
  | case2 seen hnull =>
    rw [patternItems, if_neg hnull] at h
    cases h
  | case3 repeats seen hnull hrepeats =>
    rw [patternItems, if_neg hnull, if_neg hrepeats] at h
    obtain ⟨p, hp, h⟩ := ok_of_bind h
    cases h
    rw [Bool.eq_false_iff.mpr hrepeats]
    exact .rest (fun heq => hnull (isNull_iff.mpr heq)) (hitem hp)
  | case4 repeats v seen hv =>
    rw [patternItems, if_pos hv] at h
    cases h
  | case5 repeats v seen hv ih =>
    rw [patternItems, if_neg hv] at h
    obtain ⟨p, hp, h⟩ := ok_of_bind h
    obtain ⟨more, hmore, h⟩ := ok_of_bind h
    cases h
    exact .item (Bool.eq_false_iff.mpr hv) (by simp) (hitem hp) (ih p.2 hmore)
  | case6 repeats v next more seen hv =>
    rw [patternItems, if_pos hv] at h
    cases h
  | case7 v next more seen hv hnext =>
    rw [patternItems, if_neg hv, if_pos hnext] at h
    cases h
  | case8 repeats v next more seen hv hnext hrepeats ih =>
    rw [patternItems, if_neg hv, if_pos hnext, if_neg hrepeats] at h
    obtain ⟨p, hp, h⟩ := ok_of_bind h
    obtain ⟨after, hafter, h⟩ := ok_of_bind h
    cases h
    rw [Bool.eq_false_iff.mpr hrepeats]
    exact .repeated (Bool.eq_false_iff.mpr hv) hnext (hitem hp) (ih p.2 hafter)
  | case9 repeats v next more seen hv hnext ih =>
    rw [patternItems, if_neg hv, if_neg hnext] at h
    obtain ⟨p, hp, h⟩ := ok_of_bind h
    obtain ⟨more', hmore, h⟩ := ok_of_bind h
    cases h
    exact .item (Bool.eq_false_iff.mpr hv) (by simpa using hnext) (hitem hp) (ih p.2 hmore)

theorem patternOf {fuel : Nat} {q : Pattern × Depths} (h : pattern c fuel n v seen = .ok q) :
    PatternOf c n v seen q.1 q.2 := by
  induction fuel generalizing n v seen q with
  | zero => cases h
  | succ fuel ih =>
    cases v with
    | symbol x =>
      rw [pattern] at h
      split_ifs at h with hellipsis hunderscore hliteral hseen
      · cases h
      · cases h
        exact .wildcard (beq_iff_eq.mp hunderscore)
      · cases h
        exact .literal hliteral
      · cases h
      · cases h
        exact .binder (by simpa using hseen)
    | pair a =>
      rw [pattern] at h
      cases hsplit : c.store.splitList? (.pair a) with
      | none =>
        rw [hsplit] at h
        cases h
      | some parts =>
        rw [hsplit] at h
        obtain ⟨ps, hps, h⟩ := ok_of_bind h
        cases h
        exact .list (splitList?_eq_some.mp hsplit) (patternItemsOf ih hps)
    | null =>
      cases h
      exact .null
    | vector a =>
      rw [pattern] at h
      obtain ⟨ps, hps, h⟩ := ok_of_bind h
      cases h
      exact .vector (patternItemsOf ih hps)
    | _ =>
      cases h
      exact .constant rfl (by simp)

theorem rulePatternOf {number : Nat} {q : Pattern × Depths} (h : rulePattern c number v = .ok q) :
    ∃ a head items tail ps, v = .pair a ∧ c.store.Chain v (head :: items) tail ∧
      q.1 = .list (.item .wildcard ps) ∧ PatternItemsOf c 0 tail false items [] ps q.2 := by
  unfold rulePattern at h
  split at h
  · rename_i a head items tail hsplit
    obtain ⟨ps, hps, h⟩ := ok_of_bind h
    cases h
    exact ⟨a, head, items, tail, ps.1, rfl, splitList?_eq_some.mp hsplit, rfl,
      patternItemsOf patternOf hps⟩
  · cases h

theorem templateItemsOf {item : Nat → Value → Except Error Template}
    (hitem : ∀ {n v t}, item n v = .ok t → TemplateOf c depths escaped n v t) {ts : TemplateSeq}
    (h : templateItems c item n escaped tail items = .ok ts) :
    TemplateItemsOf c depths escaped n tail items ts := by
  induction items using templateItems.induct escaped tail generalizing ts with
  | case1 hnull =>
    rw [templateItems, if_pos hnull] at h
    cases h
    rw [isNull_iff.mp hnull]
    exact .done
  | case2 hnull =>
    rw [templateItems, if_neg hnull] at h
    obtain ⟨t, ht, h⟩ := ok_of_bind h
    cases h
    exact .tail (fun heq => hnull (isNull_iff.mpr heq)) (hitem ht)
  | case3 v more hv =>
    rw [templateItems, if_pos hv] at h
    cases h
  | case4 v more hv ellipses =>
    rename_i ih
    rw [templateItems, if_neg hv] at h
    obtain ⟨t, ht, h⟩ := ok_of_bind h
    obtain ⟨ts', hts, h⟩ := ok_of_bind h
    cases h
    exact .item (by rintro rfl; simpa using hv) rfl (hitem ht) (ih hts)

theorem escapedTemplate?_eq_some {inner : Value}
    (h : escapedTemplate? escaped items tail = some inner) :
    ∃ head, items = [head, inner] ∧ escaped = false ∧ tail = .null ∧ isEllipsis head := by
  unfold escapedTemplate? at h
  split at h
  · rename_i head inner'
    split_ifs at h with hescape
    cases h
    simp only [Bool.and_eq_true, Bool.not_eq_true', isNull_iff] at hescape
    exact ⟨head, rfl, hescape.1.1, hescape.1.2, hescape.2⟩
  · cases h

theorem templateOf {fuel : Nat} {t : Template}
    (h : template c depths fuel escaped n v = .ok t) : TemplateOf c depths escaped n v t := by
  induction fuel generalizing escaped n v t with
  | zero => cases h
  | succ fuel ih =>
    cases v with
    | symbol x =>
      rw [template] at h
      split_ifs at h with hellipsis
      · cases h
      · cases hlookup : depths.lookup x with
        | none =>
          rw [hlookup] at h
          cases h
          exact .free hlookup
        | some needed =>
          rw [hlookup] at h
          dsimp only at h
          split_ifs at h with hneeded
          · cases h
          · cases h
            exact .use hlookup (Nat.not_lt.mp hneeded)
    | pair a =>
      rw [template] at h
      cases hsplit : c.store.splitList? (.pair a) with
      | none =>
        rw [hsplit] at h
        cases h
      | some parts =>
        obtain ⟨items, tail⟩ := parts
        have hchain := splitList?_eq_some.mp hsplit
        rw [hsplit] at h
        dsimp only at h
        cases hescape : escapedTemplate? escaped items tail with
        | some inner =>
          rw [hescape] at h
          obtain ⟨head, rfl, rfl, rfl, hhead⟩ := escapedTemplate?_eq_some hescape
          exact .escape hchain hhead (ih h)
        | none =>
          rw [hescape] at h
          obtain ⟨ts, hts, h⟩ := ok_of_bind h
          cases h
          exact .list hchain (templateItemsOf ih hts)
    | vector a =>
      rw [template] at h
      obtain ⟨ts, hts, h⟩ := ok_of_bind h
      cases h
      exact .vector (templateItemsOf ih hts)
    | _ =>
      cases h
      exact .constant rfl

theorem ruleOf {number : Nat} {r : Rule} (h : rule c number v = .ok r) :
    ∃ p t, c.store.properList? v = some [p, t] ∧
      rulePattern c number p = .ok (r.pattern, r.depths) ∧
        TemplateOf c r.depths false 0 t r.template := by
  unfold rule at h
  split at h
  · rename_i p t hlist
    obtain ⟨q, hq, h⟩ := ok_of_bind h
    obtain ⟨t', ht, h⟩ := ok_of_bind h
    cases h
    exact ⟨p, t, hlist, hq, templateOf ht⟩
  · cases h

theorem rules_mem {number : Nat} {clauses : List Value} {rs : List Rule}
    (h : rules c number clauses = .ok rs) :
    ∀ r ∈ rs, ∃ number, ∃ v ∈ clauses, rule c number v = .ok r := by
  induction clauses generalizing number rs with
  | nil =>
    cases h
    simp
  | cons v more ih =>
    obtain ⟨r, hr, h⟩ := ok_of_bind h
    obtain ⟨rest, hrest, h⟩ := ok_of_bind h
    cases h
    refine List.forall_mem_cons.mpr ⟨⟨number, v, List.mem_cons_self, hr⟩, fun r hr => ?_⟩
    obtain ⟨number, w, hw, hr⟩ := ih hrest r hr
    exact ⟨number, w, List.mem_cons_of_mem _ hw, hr⟩

/-- A transformer has the name it was defined under, and each of its rules is read from a part of
its definition, in the scope of its name and its literals. -/
theorem define_parts {store : Store} {name : String} {spec : Value} {t : Transformer}
    (h : define store name spec = .ok t) :
    t.name = name ∧ ∃ clauses, store.properList? spec = some clauses ∧
      ∀ r ∈ t.rules, ∃ number, ∃ v ∈ clauses, rule ⟨store, name, t.literals⟩ number v = .ok r := by
  unfold define at h
  dsimp only at h
  split at h
  · cases h
  · rename_i head names clauses hlist
    by_cases hhead : head.isNamed "syntax-rules"
    · rw [if_pos hhead] at h
      obtain ⟨literals, -, h⟩ := ok_of_bind h
      by_cases hempty : clauses.isEmpty
      · rw [if_pos hempty] at h
        cases h
      · rw [if_neg hempty] at h
        obtain ⟨rs, hrs, h⟩ := ok_of_bind h
        cases h
        refine ⟨rfl, _, hlist, fun r hr => ?_⟩
        obtain ⟨number, v, hv, hr⟩ := rules_mem hrs r hr
        exact ⟨number, v, by simp [hv], hr⟩
    · rw [if_neg hhead] at h
      cases h
  · cases h

theorem define_rules {store : Store} {name : String} {spec : Value} {t : Transformer}
    (h : define store name spec = .ok t) : ∃ clauses, store.properList? spec = some clauses ∧
      ∀ r ∈ t.rules, ∃ number, ∃ v ∈ clauses, rule ⟨store, name, t.literals⟩ number v = .ok r :=
  (define_parts h).2

theorem templateItems_plain {c : Scope} {item : Nat → Value → Except Error Template}
    {depth : Nat} {escaped : Bool} {vs : List Value} {ts : List Template}
    (h : List.Forall₂ (fun v t => isEllipsis v = false ∧ item depth v = .ok t) vs ts) :
    templateItems c item depth escaped .null vs =
      .ok (ts.foldr (fun t more => .item t 0 more) .done) := by
  induction h with
  | nil =>
    rw [templateItems]
    rfl
  | @cons v t vs ts hvt hmore ih =>
    have hnone : ellipsesOf vs = 0 := by
      cases hmore with
      | nil => rfl
      | cons hnext _ => simp [ellipsesOf, hnext.1]
    rw [templateItems]
    simp [hvt.1, hvt.2, hnone, ih, bind, Except.bind, pure, Except.pure]

end SyntaxRules

end HygienicScheme
