import HygienicScheme.Proofs.SyntaxRules.Filling
import HygienicScheme.Proofs.SyntaxRules.Legal
import HygienicScheme.Proofs.SyntaxRules.Shape
import Mathlib.Data.List.TakeWhile

/-!
# Which definitions are accepted

A definition without circular parts is accepted exactly when it is legal. Any other is refused with
a problem of shape, and an accepted one has the variables of its patterns on record.
-/
namespace HygienicScheme

namespace SyntaxRules

open Store (splitList?_eq_some properList?_eq_some)

variable {c : Scope} {depths : Depths} {escaped : Bool} {n : Nat} {v tail : Value}
  {more items : List Value}

/-! ## Templates -/

theorem LegalTemplate.not_ellipsis (h : LegalTemplate c depths false n v) :
    isEllipsis v = false := by
  cases h with
  | symbol hdots => exact beq_eq_false_iff_ne.mpr (hdots rfl)
  | escape | list | vector => rfl
  | constant hv => cases v <;> first | rfl | cases hv

/-- The run of ellipses behind an item is all that stands at the front of what follows it. -/
theorem ellipsesOf_append {dots : List Value} (hdots : ∀ w ∈ dots, isEllipsis w = true)
    (hnext : ∀ next ∈ more.head?, isEllipsis next = false) :
    ellipsesOf (dots ++ more) = dots.length := by
  rw [ellipsesOf, List.takeWhile_append_of_pos hdots]
  cases more with
  | nil => simp
  | cons next more => simp [hnext next rfl]

theorem exists_run (items : List Value) : ∃ dots more, items = dots ++ more ∧
    (∀ w ∈ dots, isEllipsis w = true) ∧ ∀ next ∈ more.head?, isEllipsis next = false := by
  refine ⟨items.takeWhile isEllipsis, items.dropWhile isEllipsis,
    List.takeWhile_append_dropWhile.symm, fun w hw => List.mem_takeWhile_imp hw, ?_⟩
  intro next hnext
  rw [← List.find?_not_eq_head?_dropWhile] at hnext
  simpa using List.find?_some hnext

theorem legalElements_cons_iff : LegalElements c depths escaped n (v :: more) ↔
    LegalTemplate c depths escaped (n + if escaped then 0 else ellipsesOf more) v ∧
      LegalElements c depths escaped n (more.drop (if escaped then 0 else ellipsesOf more)) := by
  constructor
  · intro h
    cases h with
    | plain h hmore => exact ⟨h, hmore⟩
    | @run _ _ dots more h hdots hnext hmore =>
      simp only [Bool.false_eq_true, if_false, ellipsesOf_append hdots hnext, List.drop_left]
      exact ⟨h, hmore⟩
  · rintro ⟨h, hmore⟩
    cases escaped with
    | true => exact .plain h hmore
    | false =>
      obtain ⟨dots, rest, rfl, hdots, hnext⟩ := exists_run more
      simp only [Bool.false_eq_true, if_false, ellipsesOf_append hdots hnext,
        List.drop_left] at h hmore
      exact .run h hdots hnext hmore

/-- The items of a level are read in order, as far as each of its parts is decided. -/
theorem templateItems_decides {item : Nat → Value → Except Error Template} {part : Value → Prop}
    (hitem : ∀ n v, part v →
      Decides c.name (item n v) (LegalTemplate c depths escaped n v) fun _ => True)
    (htail : part tail) (hitems : ∀ v ∈ items, part v) :
    Decides c.name (templateItems c item n escaped tail items)
      (LegalElements c depths escaped n items ∧
        (tail ≠ .null → LegalTemplate c depths escaped n tail)) fun _ => True := by
  induction items using templateItems.induct escaped tail with
  | case1 hnull =>
    rw [templateItems, if_pos hnull]
    exact ⟨⟨.nil, fun h => absurd (isNull_iff.mp hnull) h⟩, trivial⟩
  | case2 hnull =>
    rw [templateItems, if_neg hnull]
    have hnot : tail ≠ .null := fun heq => hnull (isNull_iff.mpr heq)
    refine (hitem n tail htail).bind (fun t h _ => ?_) fun h => h.2 hnot
    exact ⟨⟨.nil, fun _ => h⟩, trivial⟩
  | case3 v more hv =>
    rw [templateItems, if_pos hv]
    simp only [Bool.and_eq_true, Bool.not_eq_true'] at hv
    obtain ⟨rfl, hv⟩ := hv
    refine .refuse _ fun h => ?_
    have hhead := (legalElements_cons_iff.mp h.1).1.not_ellipsis
    simp [hv] at hhead
  | case4 v more hv ellipses =>
    rename_i ih
    obtain ⟨hv', hmore⟩ := List.forall_mem_cons.mp hitems
    rw [templateItems, if_neg hv, legalElements_cons_iff]
    refine (hitem _ v hv').bind (fun t h _ => ?_) fun h => h.1.1
    refine (ih fun w hw => hmore w (List.mem_of_mem_drop hw)).bind (fun ts hts _ => ?_) ?_
    · exact ⟨⟨⟨h, hts.1⟩, hts.2⟩, trivial⟩
    · exact fun hall => ⟨hall.1.2, hall.2⟩

theorem legalTemplate_symbol_iff {x : Symbol} :
    LegalTemplate c depths escaped n (.symbol x) ↔ (escaped = false → x.name ≠ ellipsis) ∧
      ∀ needed, depths.lookup x = some needed → needed ≤ n := by
  constructor
  · intro h
    cases h with
    | symbol hdots hdeep => exact ⟨hdots, hdeep⟩
    | constant hv => cases hv
  · rintro ⟨hdots, hdeep⟩
    exact .symbol hdots hdeep

theorem legalTemplate_vector_iff {a : Address} : LegalTemplate c depths escaped n (.vector a) ↔
    LegalElements c depths escaped n (c.store.vectorAt a).toList := by
  constructor
  · intro h
    cases h with
    | vector h => exact h
    | constant hv => cases hv
  · exact .vector

/-- A list that is an escape is no list of elements, the first of which would be an ellipsis. -/
theorem legalTemplate_escape_iff {a : Address} {dots inner : Value}
    (hchain : c.store.Chain (.pair a) [dots, inner] .null) (hdots : isEllipsis dots = true) :
    LegalTemplate c depths false n (.pair a) ↔ LegalTemplate c depths true n inner := by
  constructor
  · intro h
    cases h with
    | escape hchain' _ h =>
      obtain ⟨heq, -⟩ := hchain.unique hchain'
      cases heq
      exact h
    | list hchain' h _ =>
      obtain ⟨rfl, -⟩ := hchain.unique hchain'
      have hhead := (legalElements_cons_iff.mp h).1.not_ellipsis
      simp [hdots] at hhead
    | constant hv => cases hv
  · exact .escape hchain hdots

theorem legalTemplate_list_iff {a : Address} (hchain : c.store.Chain (.pair a) items tail)
    (hescape : escapedTemplate? escaped items tail = none) :
    LegalTemplate c depths escaped n (.pair a) ↔ LegalElements c depths escaped n items ∧
      (tail ≠ .null → LegalTemplate c depths escaped n tail) := by
  constructor
  · intro h
    cases h with
    | escape hchain' hdots h =>
      obtain ⟨rfl, rfl⟩ := hchain.unique hchain'
      simp [escapedTemplate?, hdots, Value.isNull] at hescape
    | list hchain' h htail =>
      obtain ⟨rfl, rfl⟩ := hchain.unique hchain'
      exact ⟨h, htail⟩
    | constant hv => cases hv
  · rintro ⟨h, htail⟩
    exact .list hchain h htail

theorem template_decides {fuel : Nat} (hv : c.store.Within fuel v) :
    Decides c.name (template c depths (fuel + 1) escaped n v) (LegalTemplate c depths escaped n v)
      fun _ => True := by
  induction fuel using Nat.strongRecOn generalizing escaped n v with
  | ind fuel ih =>
    cases v with
    | symbol x =>
      rw [template, legalTemplate_symbol_iff]
      split_ifs with hdots
      · simp only [Bool.and_eq_true, Bool.not_eq_true', beq_iff_eq] at hdots
        exact .refuse _ fun h => h.1 hdots.2 hdots.1
      · have hfirst : escaped = false → x.name ≠ ellipsis := by
          rintro rfl
          simpa using hdots
        cases hlookup : depths.lookup x with
        | none => exact ⟨⟨hfirst, by simp⟩, trivial⟩
        | some needed =>
          dsimp only
          split_ifs with hneeded
          · exact .refuse _ fun h => absurd (h.2 needed rfl) (Nat.not_le.mpr hneeded)
          · exact ⟨⟨hfirst, by simpa using Nat.not_lt.mp hneeded⟩, trivial⟩
    | pair a =>
      obtain ⟨m, rfl⟩ := exists_succ_of_within hv (.inl ⟨a, rfl⟩)
      obtain ⟨items, tail, hchain⟩ := exists_chain_of_within hv
      obtain ⟨hitems, htail⟩ := hv.parts hchain
      rw [template, splitList?_eq_some.mpr hchain]
      dsimp only
      cases hescape : escapedTemplate? escaped items tail with
      | some inner =>
        obtain ⟨dots, rfl, rfl, rfl, hdots⟩ := escapedTemplate?_eq_some hescape
        rw [legalTemplate_escape_iff hchain hdots]
        exact ih m (Nat.lt_succ_self m) (hitems inner (by simp))
      | none =>
        rw [legalTemplate_list_iff hchain hescape]
        exact (templateItems_decides (fun n v hv => ih m (Nat.lt_succ_self m) hv)
          htail hitems).bind (fun _ h _ => ⟨h, trivial⟩) id
    | vector a =>
      obtain ⟨m, rfl⟩ := exists_succ_of_within hv (.inr ⟨a, rfl⟩)
      rw [template, legalTemplate_vector_iff]
      refine (templateItems_decides (fun n v hv => ih m (Nat.lt_succ_self m) hv)
        (Store.within_leaf (by simp) (by simp)) hv).bind (fun _ h _ => ⟨h.1, trivial⟩) fun h => ?_
      exact ⟨h, fun hnull => absurd rfl hnull⟩
    | _ => exact ⟨.constant rfl, trivial⟩

/-! ## Definitions -/

theorem exists_fuel (hv : c.store.Tree v) :
    ∃ fuel, c.store.walkBound = fuel + 1 ∧ c.store.Within fuel v := by
  have hbound := c.store.cells_lt_walkBound
  exact ⟨c.store.walkBound - 1, by omega, hv.within.mono (by omega)⟩

theorem legalRulePattern_eq {a : Address} {keyword : Value}
    (hchain : c.store.Chain (.pair a) (keyword :: items) tail) :
    LegalRulePattern c (.pair a) = LegalRest c 0 tail false items := by
  funext vars
  apply propext
  rw [← legalLevel_iff]
  constructor
  · rintro ⟨b, keyword', items', tail', -, hchain', h⟩
    obtain ⟨heq, rfl⟩ := hchain.unique hchain'
    cases heq
    exact h
  · exact fun h => ⟨a, keyword, items, tail, rfl, hchain, h⟩

theorem rulePattern_decides {number : Nat} (hv : c.store.Tree v) :
    Decides c.name (rulePattern c number v) (Fresh [] (LegalRulePattern c v))
      fun q => Adding [] (LegalRulePattern c v) q.2 := by
  obtain ⟨all, tail, hchain⟩ := hv.chain
  cases hchain with
  | tail hpair =>
    have hfail : rulePattern c number v = c.fail (.patternShape number) := by
      unfold rulePattern
      split
      · exact absurd rfl (hpair _)
      · rfl
    rw [hfail]
    refine .refuse _ ?_
    rintro ⟨-, ⟨a, -, -, -, rfl, -⟩, -⟩
    exact hpair a rfl
  | @pair a items _ hcdr =>
    have hchain := Store.Chain.pair hcdr
    obtain ⟨fuel, hfuel, hwithin⟩ := exists_fuel hv
    obtain ⟨hitems, htail⟩ := hwithin.chain hchain
    have hread : Decides c.name (patternItems c (pattern c (fuel + 1)) 0 tail false items [])
        (Fresh [] (LegalRest c 0 tail false items))
        fun q => Adding [] (LegalRest c 0 tail false items) q.2 :=
      patternItems_decides (fun n v seen hv hseen => pattern_decides hv hseen) htail
        (fun w hw => ((List.forall_mem_cons.mp hitems).2 w hw).mono (Nat.sub_le fuel 1))
        List.nodup_nil
    have hpattern : rulePattern c number (.pair a) =
        patternItems c (pattern c (fuel + 1)) 0 tail false items [] >>= fun q =>
          pure (.list (.item .wildcard q.1), q.2) := by
      unfold rulePattern
      rw [splitList?_eq_some.mpr hchain, hfuel]
    rw [hpattern, legalRulePattern_eq hchain]
    exact hread.wrap (g := fun items => Pattern.list (.item .wildcard items))

theorem rule_decides {number : Nat} (hv : c.store.Tree v) :
    Decides c.name (rule c number v) (∃ vars, LegalRule c v vars)
      fun r => ∀ vars, LegalRule c v vars ↔ vars = r.depths := by
  unfold rule
  split
  · rename_i p t hlist
    have hchain := properList?_eq_some.mp hlist
    obtain ⟨hp, ht⟩ : c.store.Tree p ∧ c.store.Tree t := by simpa using hv.items hchain
    obtain ⟨fuel, hfuel, hwithin⟩ := exists_fuel ht
    rw [hfuel]
    refine (rulePattern_decides hp).bind (fun q _ hq => ?_) ?_
    · obtain ⟨vars, hvars, hnodup, honly⟩ := hq
      rw [List.nil_append] at hvars
      have hrule : ∀ more, LegalRule c v more ↔
          more = vars ∧ LegalTemplate c vars false 0 t := by
        intro more
        constructor
        · rintro ⟨⟨p', t', hchain', hpattern, htemplate⟩, -⟩
          obtain ⟨heq, -⟩ := hchain.unique hchain'
          cases heq
          rw [(honly more).mp hpattern] at htemplate
          exact ⟨(honly more).mp hpattern, htemplate⟩
        · rintro ⟨rfl, htemplate⟩
          exact ⟨⟨p, t, hchain, (honly more).mpr rfl, htemplate⟩, by rwa [← hvars]⟩
      simp only [hrule, exists_eq_left, hvars]
      refine (template_decides hwithin).bind (fun r h _ => ?_) id
      exact ⟨h, fun more => and_iff_left h⟩
    · rintro ⟨vars, ⟨p', t', hchain', hpattern, -⟩, hnodup⟩
      obtain ⟨heq, -⟩ := hchain.unique hchain'
      cases heq
      exact ⟨vars, hpattern, hnodup⟩
  · rename_i hlist
    refine .refuse _ ?_
    rintro ⟨vars, ⟨p, t, hchain, -⟩, -⟩
    exact hlist p t (properList?_eq_some.mpr hchain)

theorem rules_decides {number : Nat} {clauses : List Value}
    (hclauses : ∀ v ∈ clauses, c.store.Tree v) :
    Decides c.name (rules c number clauses) (∀ v ∈ clauses, ∃ vars, LegalRule c v vars)
      fun rs =>
        List.Forall₂ (fun v r => ∀ vars, LegalRule c v vars ↔ vars = r.depths) clauses rs := by
  induction clauses generalizing number with
  | nil => exact ⟨by simp, .nil⟩
  | cons v more ih =>
    obtain ⟨hv, hmore⟩ := List.forall_mem_cons.mp hclauses
    rw [rules]
    simp only [List.forall_mem_cons]
    refine (rule_decides hv).bind (fun r h hr => ?_) And.left
    exact (ih hmore).bind (fun rs hrs hall => ⟨⟨h, hrs⟩, .cons hr hall⟩) And.right

theorem literal_decides : Decides c.name (literal c v)
    (∃ x : Symbol, v = .symbol x ∧ x.name ≠ ellipsis ∧ x.name ≠ underscore)
      fun x => v = .symbol x := by
  cases v with
  | symbol x =>
    rw [literal]
    split_ifs with hreserved
    · refine .refuse _ ?_
      rintro ⟨y, heq, hdots, hwildcard⟩
      cases heq
      simp [hdots, hwildcard] at hreserved
    · simp only [Bool.or_eq_true, beq_iff_eq, not_or] at hreserved
      exact ⟨⟨x, rfl, hreserved⟩, rfl⟩
  | _ => exact .refuse _ (by simp)

theorem mapM_literal_decides (items : List Value) : Decides c.name (items.mapM (literal c))
    (∃ listed : List Symbol, items = listed.map .symbol ∧
      ∀ x ∈ listed, x.name ≠ ellipsis ∧ x.name ≠ underscore)
    fun listed => items = listed.map .symbol := by
  induction items with
  | nil => exact ⟨⟨[], rfl, by simp⟩, rfl⟩
  | cons v more ih =>
    rw [List.mapM_cons]
    refine literal_decides.bind (fun x hv hx => ih.bind (fun xs hmore hxs => ?_) ?_) ?_
    · obtain ⟨y, hy, hname⟩ := hv
      obtain ⟨ys, hys, hnames⟩ := hmore
      exact ⟨⟨y :: ys, by rw [hy, hys, List.map_cons], List.forall_mem_cons.mpr ⟨hname, hnames⟩⟩,
        by simp [hx, hxs]⟩
    all_goals
      rintro ⟨listed, heq, hnames⟩
      obtain ⟨y, ys, rfl, rfl, rfl⟩ := List.map_eq_cons_iff.mp heq.symm
      obtain ⟨hy, hys⟩ := List.forall_mem_cons.mp hnames
    · exact ⟨ys, rfl, hys⟩
    · exact ⟨y, rfl, hy⟩

theorem map_symbol_inj {xs ys : List Symbol} (h : xs.map Value.symbol = ys.map .symbol) : xs = ys :=
  List.map_injective_iff.mpr (fun _ _ h => Value.symbol.inj h) h

theorem LegalLiterals.unique {s : Store} {xs ys : List Symbol} (h : LegalLiterals s v xs)
    (k : LegalLiterals s v ys) : xs = ys :=
  map_symbol_inj (h.1.unique k.1).1

theorem literals_decides : Decides c.name (literals c v) (∃ listed, LegalLiterals c.store v listed)
    fun listed => LegalLiterals c.store v listed := by
  unfold literals
  cases hlist : c.store.properList? v with
  | none =>
    refine .refuse _ ?_
    rintro ⟨listed, h, -⟩
    rw [properList?_eq_some.mpr h] at hlist
    cases hlist
  | some items =>
    have hchain := properList?_eq_some.mp hlist
    have hlisted : ∀ listed : List Symbol,
        c.store.Chain v (listed.map .symbol) .null ↔ items = listed.map .symbol := fun listed =>
      ⟨fun h => (hchain.unique h).1, fun heq => heq ▸ hchain⟩
    refine (mapM_literal_decides items).congr ?_ fun listed hlegal heq => ?_
    · simp only [LegalLiterals, hlisted]
    · obtain ⟨ys, hys, hnames⟩ := hlegal
      rw [map_symbol_inj (hys.symm.trans heq)] at hnames
      exact ⟨(hlisted listed).mpr heq, hnames⟩

theorem define_decides {s : Store} {name : String} {spec : Value} (hspec : s.Tree spec) :
    Decides name (define s name spec) (∃ listed clauses, LegalDefinition s name spec listed clauses)
      fun t => t.name = name ∧ ∃ clauses, LegalDefinition s name spec t.literals clauses ∧
        List.Forall₂ (fun v r => ∀ vars, LegalRule ⟨s, name, t.literals⟩ v vars ↔ vars = r.depths)
          clauses t.rules := by
  set c : Scope := ⟨s, name, []⟩
  unfold define
  dsimp only
  split
  · rename_i hlist
    refine Decides.refuse (c := c) _ ?_
    rintro ⟨listed, clauses, ⟨head, names, hchain, -⟩, -⟩
    rw [properList?_eq_some.mpr hchain] at hlist
    cases hlist
  · rename_i head names clauses hlist
    have hchain := properList?_eq_some.mp hlist
    -- The specification can be read in one way only.
    have hparts : ∀ {listed clauses'}, LegalDefinition s name spec listed clauses' →
        clauses' = clauses ∧ head.isNamed "syntax-rules" = true ∧ LegalLiterals s names listed := by
      rintro listed clauses' ⟨⟨head', names', hchain', hhead, hnames⟩, -, -⟩
      obtain ⟨heq, -⟩ := hchain.unique hchain'
      cases heq
      exact ⟨rfl, hhead, hnames⟩
    by_cases hhead : head.isNamed "syntax-rules" = true
    · rw [if_pos hhead]
      refine (literals_decides (c := c)).bind (fun listed _ hlisted => ?_) ?_
      · have hlegal : (∃ listed clauses, LegalDefinition s name spec listed clauses) ↔
            clauses ≠ [] ∧ ∀ v ∈ clauses, ∃ vars, LegalRule ⟨s, name, listed⟩ v vars := by
          constructor
          · rintro ⟨listed', clauses', h⟩
            obtain ⟨rfl, -, hlisted'⟩ := hparts h
            obtain rfl := hlisted'.unique hlisted
            exact ⟨h.nonempty, h.rules⟩
          · rintro ⟨hnonempty, hrules⟩
            exact ⟨listed, clauses, ⟨head, names, hchain, hhead, hlisted⟩, hnonempty, hrules⟩
        rw [hlegal]
        by_cases hempty : clauses.isEmpty = true
        · rw [if_pos hempty]
          exact Decides.refuse (c := c) _ fun h => h.1 (List.isEmpty_iff.mp hempty)
        · rw [if_neg hempty]
          have hnonempty : clauses ≠ [] := fun heq => hempty (List.isEmpty_iff.mpr heq)
          have htrees : ∀ v ∈ clauses, s.Tree v := fun v hv =>
            hspec.items hchain v (by simp [hv])
          refine (rules_decides (c := ⟨s, name, listed⟩) htrees).bind
            (fun rs hrs hall => ?_) And.right
          exact ⟨⟨hnonempty, hrs⟩, rfl, clauses,
            ⟨⟨head, names, hchain, hhead, hlisted⟩, hnonempty, hrs⟩, hall⟩
      · rintro ⟨listed, clauses', h⟩
        exact ⟨listed, (hparts h).2.2⟩
    · rw [if_neg hhead]
      refine Decides.refuse (c := c) _ ?_
      rintro ⟨listed, clauses', h⟩
      exact hhead (hparts h).2.1
  · rename_i hshape hlist
    refine Decides.refuse (c := c) _ ?_
    rintro ⟨listed, clauses, ⟨head, names, hchain, -⟩, -⟩
    rw [properList?_eq_some.mpr hchain] at hlist
    exact hshape head names clauses (Option.some.inj hlist).symm

/-- A definition without circular parts is accepted exactly when it is legal, and otherwise refused
with a problem of shape. The rules that come of it have the variables of their patterns on record,
each with the number of ellipses over it. -/
theorem define_accepts {s : Store} {name : String} {spec : Value} (hspec : s.Tree spec) :
    ((∃ t, define s name spec = .ok t) ↔
        ∃ listed clauses, LegalDefinition s name spec listed clauses) ∧
      (∀ e, define s name spec = .error e → ∃ problem, e = .shape name problem) ∧
      ∀ t, define s name spec = .ok t → t.name = name ∧
        ∃ clauses, LegalDefinition s name spec t.literals clauses ∧
          List.Forall₂ (fun v r => (r.depths.map Prod.fst).Nodup ∧
            ∀ vars, LegalRule ⟨s, name, t.literals⟩ v vars ↔ vars = r.depths) clauses t.rules := by
  have h := @define_decides s name spec hspec
  cases hdefine : define s name spec with
  | ok t =>
    rw [hdefine] at h
    obtain ⟨hlegal, hname, clauses, hdefinition, hrules⟩ := h
    refine ⟨⟨fun _ => hlegal, fun _ => ⟨t, rfl⟩⟩, by simp, ?_⟩
    rintro _ ⟨⟩
    refine ⟨hname, clauses, hdefinition, hrules.imp fun v r hr => ⟨?_, hr⟩⟩
    exact ((hr r.depths).mpr rfl).nodup
  | error e =>
    rw [hdefine] at h
    refine ⟨⟨by simp, fun hlegal => absurd hlegal h.2⟩, ?_, by simp⟩
    rintro _ ⟨⟩
    exact h.1

theorem tree_each : MacroUse.eachUse.Tree (.pair 0) := by
  have hleaf : ∀ {v : Value}, v = .null ∨ (∃ x, v = .symbol x) → MacroUse.eachUse.Tree v := by
    rintro v (rfl | ⟨x, rfl⟩) <;> exact .leaf (by simp) (by simp)
  have hname : ∀ x : String, MacroUse.eachUse.Tree (.name x) := fun x => hleaf (.inr ⟨_, rfl⟩)
  have hnull : MacroUse.eachUse.Tree .null := hleaf (.inl rfl)
  have h9 : MacroUse.eachUse.Tree (.pair 9) := .pair (by decide) (hname _) hnull
  have h8 : MacroUse.eachUse.Tree (.pair 8) := .pair (by decide) (hname _) h9
  have h7 : MacroUse.eachUse.Tree (.pair 7) := .pair (by decide) (hname _) hnull
  have h6 : MacroUse.eachUse.Tree (.pair 6) := .pair (by decide) (hname _) h7
  have h5 : MacroUse.eachUse.Tree (.pair 5) := .pair (by decide) (hname _) h6
  have h4 : MacroUse.eachUse.Tree (.pair 4) := .pair (by decide) h8 hnull
  have h3 : MacroUse.eachUse.Tree (.pair 3) := .pair (by decide) h5 h4
  have h2 : MacroUse.eachUse.Tree (.pair 2) := .pair (by decide) h3 hnull
  have h1 : MacroUse.eachUse.Tree (.pair 1) := .pair (by decide) hnull h2
  exact .pair (by decide) (hname _) h1

/-- A definition is legal, and one of its rules by itself is none. -/
theorem define_accepts_each :
    (∃ clauses, LegalDefinition MacroUse.eachUse "each" (.pair 0) [] clauses) ∧
      ¬ ∃ listed clauses, LegalDefinition MacroUse.eachUse "each" (.pair 3) listed clauses := by
  constructor
  · obtain ⟨-, clauses, hlegal, -⟩ := (define_accepts tree_each).2.2 _ MacroUse.define_each
    exact ⟨clauses, hlegal⟩
  · intro hlegal
    have htree : MacroUse.eachUse.Tree (.pair 3) := tree_each.cdr.cdr.car
    obtain ⟨t, ht⟩ := (define_accepts htree).1.mpr hlegal
    cases ht

end SyntaxRules

end HygienicScheme
