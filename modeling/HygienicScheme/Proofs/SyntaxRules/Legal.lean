import HygienicScheme.Proofs.Store.Spines
import HygienicScheme.Proofs.SyntaxRules.Reading
import Mathlib.Data.List.Nodup

/-!
# Legal definitions

The grammar of `syntax-rules` definitions, as relations on values without any order in which to
check them. A legal pattern comes with its variables and the number of ellipses over each, in the
order in which they stand, repetitions included.
-/
namespace HygienicScheme.SyntaxRules

mutual

inductive LegalPattern (c : Scope) : Nat → Value → Depths → Prop
  | wildcard {n : Nat} {x : Symbol} (hx : x.name = underscore) : LegalPattern c n (.symbol x) []
  | literal {n : Nat} {x : Symbol} (hdots : x.name ≠ ellipsis) (hwildcard : x.name ≠ underscore)
      (hx : c.isLiteral x = true) : LegalPattern c n (.symbol x) []
  | binder {n : Nat} {x : Symbol} (hdots : x.name ≠ ellipsis) (hwildcard : x.name ≠ underscore)
      (hx : c.isLiteral x = false) : LegalPattern c n (.symbol x) [(x, n)]
  | list {n : Nat} {a : Address} {items : List Value} {tail : Value} {vars : Depths}
      (hchain : c.store.Chain (.pair a) items tail) (h : LegalLevel c n items tail vars) :
      LegalPattern c n (.pair a) vars
  | vector {n : Nat} {a : Address} {vars : Depths}
      (h : LegalLevel c n (c.store.vectorAt a).toList .null vars) :
      LegalPattern c n (.vector a) vars
  | constant {n : Nat} {v : Value} (hv : v.isConstant) : LegalPattern c n v []

inductive LegalLevel (c : Scope) : Nat → List Value → Value → Depths → Prop
  | proper {n : Nat} {items : List Value} {vars : Depths} (h : LegalItems c n items vars)
      (hone : items.countP isEllipsis ≤ 1) : LegalLevel c n items .null vars
  | dotted {n : Nat} {items : List Value} {tail : Value} {vars more : Depths}
      (h : LegalItems c n items vars) (hnone : items.countP isEllipsis = 0) (hnull : tail ≠ .null)
      (htail : LegalPattern c n tail more) : LegalLevel c n items tail (vars ++ more)

inductive LegalItems (c : Scope) : Nat → List Value → Depths → Prop
  | nil {n : Nat} : LegalItems c n [] []
  | single {n : Nat} {v : Value} {more : List Value} {vars others : Depths}
      (h : LegalPattern c n v vars) (hnext : ∀ next ∈ more.head?, isEllipsis next = false)
      (hmore : LegalItems c n more others) : LegalItems c n (v :: more) (vars ++ others)
  | repeated {n : Nat} {v dots : Value} {more : List Value} {vars others : Depths}
      (h : LegalPattern c (n + 1) v vars) (hdots : isEllipsis dots = true)
      (hmore : LegalItems c n more others) : LegalItems c n (v :: dots :: more) (vars ++ others)

end

mutual

inductive LegalTemplate (c : Scope) (depths : Depths) : Bool → Nat → Value → Prop
  | symbol {escaped : Bool} {n : Nat} {x : Symbol} (hdots : escaped = false → x.name ≠ ellipsis)
      (hdeep : ∀ needed, depths.lookup x = some needed → needed ≤ n) :
      LegalTemplate c depths escaped n (.symbol x)
  | escape {n : Nat} {a : Address} {dots inner : Value}
      (hchain : c.store.Chain (.pair a) [dots, inner] .null) (hdots : isEllipsis dots = true)
      (h : LegalTemplate c depths true n inner) : LegalTemplate c depths false n (.pair a)
  | list {escaped : Bool} {n : Nat} {a : Address} {items : List Value} {tail : Value}
      (hchain : c.store.Chain (.pair a) items tail) (h : LegalElements c depths escaped n items)
      (htail : tail ≠ .null → LegalTemplate c depths escaped n tail) :
      LegalTemplate c depths escaped n (.pair a)
  | vector {escaped : Bool} {n : Nat} {a : Address}
      (h : LegalElements c depths escaped n (c.store.vectorAt a).toList) :
      LegalTemplate c depths escaped n (.vector a)
  | constant {escaped : Bool} {n : Nat} {v : Value} (hv : v.isConstant) :
      LegalTemplate c depths escaped n v

inductive LegalElements (c : Scope) (depths : Depths) : Bool → Nat → List Value → Prop
  | nil {escaped : Bool} {n : Nat} : LegalElements c depths escaped n []
  | plain {n : Nat} {v : Value} {more : List Value} (h : LegalTemplate c depths true n v)
      (hmore : LegalElements c depths true n more) : LegalElements c depths true n (v :: more)
  | run {n : Nat} {v : Value} {dots more : List Value}
      (h : LegalTemplate c depths false (n + dots.length) v)
      (hdots : ∀ w ∈ dots, isEllipsis w = true)
      (hnext : ∀ next ∈ more.head?, isEllipsis next = false)
      (hmore : LegalElements c depths false n more) :
      LegalElements c depths false n (v :: (dots ++ more))

end

def LegalRulePattern (c : Scope) (v : Value) (vars : Depths) : Prop :=
  ∃ a keyword items tail, v = .pair a ∧ c.store.Chain v (keyword :: items) tail ∧
    LegalLevel c 0 items tail vars

/-- The value is a rule, a list of a pattern with these variables, of which none stands in it twice,
and of a template. -/
structure LegalRule (c : Scope) (v : Value) (vars : Depths) : Prop where
  parts : ∃ p template, c.store.Chain v [p, template] .null ∧ LegalRulePattern c p vars ∧
    LegalTemplate c vars false 0 template
  nodup : (vars.map Prod.fst).Nodup

def LegalLiterals (s : Store) (v : Value) (listed : List Symbol) : Prop :=
  s.Chain v (listed.map .symbol) .null ∧ ∀ x ∈ listed, x.name ≠ ellipsis ∧ x.name ≠ underscore

/-- The value is a definition with these literals and these rules. -/
structure LegalDefinition (s : Store) (name : String) (spec : Value) (listed : List Symbol)
    (clauses : List Value) : Prop where
  parts : ∃ head names, s.Chain spec (head :: names :: clauses) .null ∧
    head.isNamed "syntax-rules" = true ∧ LegalLiterals s names listed
  nonempty : clauses ≠ []
  rules : ∀ v ∈ clauses, ∃ vars, LegalRule ⟨s, name, listed⟩ v vars

/-! ## Checks that decide -/

def Decides {α : Type} (name : String) (x : Except Error α) (legal : Prop) (Q : α → Prop) : Prop :=
  match x with
  | .ok a => legal ∧ Q a
  | .error e => (∃ problem, e = .shape name problem) ∧ ¬ legal

section Decides

variable {α β : Type} {name : String} {x : Except Error α} {f : α → Except Error β}
  {legal legal' : Prop} {P : α → Prop} {Q Q' : β → Prop} {y : Except Error β}

theorem Decides.congr (h : Decides name y legal Q) (hlegal : legal ↔ legal')
    (hQ : ∀ b, legal → Q b → Q' b) : Decides name y legal' Q' := by
  cases y with
  | ok b => exact ⟨hlegal.mp h.1, hQ b h.1 h.2⟩
  | error e => exact ⟨h.1, fun hl => h.2 (hlegal.mpr hl)⟩

theorem Decides.bind (h : Decides name x legal P)
    (hf : ∀ a, legal → P a → Decides name (f a) legal' Q) (hlegal : legal' → legal) :
    Decides name (x >>= f) legal' Q := by
  cases x with
  | ok a => exact hf a h.1 h.2
  | error e => exact ⟨h.1, fun hl => h.2 (hlegal hl)⟩

theorem Decides.refuse {c : Scope} (problem : ShapeProblem) (h : ¬ legal) :
    Decides c.name (c.fail problem) legal P :=
  ⟨⟨problem, rfl⟩, h⟩

end Decides

/-! ## Patterns -/

variable {c : Scope}

theorem LegalPattern.not_ellipsis {n : Nat} {v : Value} {vars : Depths}
    (h : LegalPattern c n v vars) : isEllipsis v = false := by
  cases h with
  | wildcard hx =>
    rw [isEllipsis, Value.isNamed, hx]
    rfl
  | literal hdots | binder hdots => exact beq_eq_false_iff_ne.mpr hdots
  | list | vector => rfl
  | constant hv => cases v <;> first | rfl | cases hv

def Fresh (seen : Depths) (legal : Depths → Prop) : Prop :=
  ∃ vars, legal vars ∧ ((seen ++ vars).map Prod.fst).Nodup

def Adding (seen : Depths) (legal : Depths → Prop) (seen' : Depths) : Prop :=
  ∃ vars, seen' = seen ++ vars ∧ (seen'.map Prod.fst).Nodup ∧ ∀ more, legal more ↔ more = vars

def Both (first second : Depths → Prop) (vars : Depths) : Prop :=
  ∃ vs ws, vars = vs ++ ws ∧ first vs ∧ second ws

section Sequences

variable {α β : Type} {name : String} {x : Except Error (α × Depths)} {seen : Depths}
  {f : α × Depths → Except Error (β × Depths)} {first second legal : Depths → Prop}

theorem adding_single {vars : Depths} (hnodup : ((seen ++ vars).map Prod.fst).Nodup)
    (h : ∀ more, legal more ↔ more = vars) :
    Fresh seen legal ∧ Adding seen legal (seen ++ vars) :=
  ⟨⟨vars, (h vars).mpr rfl, hnodup⟩, vars, rfl, hnodup, h⟩

theorem adding_nil (hseen : (seen.map Prod.fst).Nodup) (h : ∀ more, legal more ↔ more = []) :
    Fresh seen legal ∧ Adding seen legal seen := by
  have hnodup : ((seen ++ []).map Prod.fst).Nodup := by rwa [List.append_nil]
  have hsame := adding_single hnodup h
  rwa [List.append_nil] at hsame

theorem Decides.wrap {g : α → β} {Q : Depths → Prop} {legal : Prop}
    (h : Decides name x legal fun q => Q q.2) :
    Decides name (x >>= fun (a, seen) => pure (g a, seen)) legal fun q => Q q.2 := by
  cases x with
  | ok a => exact h
  | error e => exact h

theorem Decides.both (h : Decides name x (Fresh seen first) fun q => Adding seen first q.2)
    (hf : ∀ q, (q.2.map Prod.fst).Nodup →
      Decides name (f q) (Fresh q.2 second) fun r => Adding q.2 second r.2) :
    Decides name (x >>= f) (Fresh seen (Both first second))
      fun r => Adding seen (Both first second) r.2 := by
  refine h.bind (fun q _ hq => ?_) ?_
  · obtain ⟨vars, hvars, hnodup, honly⟩ := hq
    have honlyBoth : ∀ more, Both first second more ↔ ∃ ws, more = vars ++ ws ∧ second ws := by
      intro more
      constructor
      · rintro ⟨vs, ws, rfl, hvs, hws⟩
        exact ⟨ws, by rw [(honly vs).mp hvs], hws⟩
      · rintro ⟨ws, rfl, hws⟩
        exact ⟨vars, ws, rfl, (honly vars).mpr rfl, hws⟩
    refine (hf q hnodup).congr ?_ ?_
    · simp only [Fresh, honlyBoth, hvars, List.append_assoc]
      constructor
      · rintro ⟨ws, hws, hnodup⟩
        exact ⟨_, ⟨ws, rfl, hws⟩, hnodup⟩
      · rintro ⟨-, ⟨ws, rfl, hws⟩, hnodup⟩
        exact ⟨ws, hws, hnodup⟩
    · rintro r - ⟨ws, hws, hnodup', hsecond⟩
      refine ⟨vars ++ ws, by rw [hws, hvars, List.append_assoc], hnodup', fun more => ?_⟩
      simp only [honlyBoth, hsecond, exists_eq_right]
  · rintro ⟨-, ⟨vs, ws, rfl, hvs, -⟩, hnodup⟩
    rw [← List.append_assoc, List.map_append] at hnodup
    exact ⟨vs, hvs, (List.nodup_append.mp hnodup).1⟩

end Sequences

def LegalRest (c : Scope) (n : Nat) (tail : Value) (repeats : Bool) (items : List Value) :
    Depths → Prop :=
  Both (fun vars => LegalItems c n items vars ∧
      items.countP isEllipsis + repeats.toNat ≤ 1)
    fun vars => tail = .null ∧ vars = [] ∨ tail ≠ .null ∧
      items.countP isEllipsis + repeats.toNat = 0 ∧ LegalPattern c n tail vars

theorem legalLevel_iff {n : Nat} {items : List Value} {tail : Value} {vars : Depths} :
    LegalLevel c n items tail vars ↔ LegalRest c n tail false items vars := by
  constructor
  · intro h
    cases h with
    | proper h hone => exact ⟨vars, [], (List.append_nil vars).symm, ⟨h, hone⟩, .inl ⟨rfl, rfl⟩⟩
    | dotted h hnone hnull htail =>
      exact ⟨_, _, rfl, ⟨h, by simp [hnone]⟩, .inr ⟨hnull, hnone, htail⟩⟩
  · rintro ⟨vs, ws, rfl, ⟨h, hone⟩, ⟨rfl, rfl⟩ | ⟨hnull, hnone, htail⟩⟩
    · rw [List.append_nil]
      exact .proper h hone
    · exact .dotted h hnone hnull htail

variable {n : Nat} {tail v : Value} {repeats : Bool} {more : List Value} {vars : Depths}

theorem legalRest_nil_iff : LegalRest c n tail repeats [] vars ↔
    tail = .null ∧ vars = [] ∨ tail ≠ .null ∧ repeats = false ∧ LegalPattern c n tail vars := by
  constructor
  · rintro ⟨vs, ws, rfl, ⟨⟨⟩, -⟩, ⟨hnull, rfl⟩ | ⟨hnull, hnone, htail⟩⟩
    · exact .inl ⟨hnull, rfl⟩
    · exact .inr ⟨hnull, by simpa using hnone, htail⟩
  · rintro (⟨hnull, rfl⟩ | ⟨hnull, rfl, htail⟩)
    · exact ⟨[], [], rfl, ⟨.nil, by simpa using repeats.toNat_le⟩, .inl ⟨hnull, rfl⟩⟩
    · exact ⟨[], vars, rfl, ⟨.nil, by simp⟩, .inr ⟨hnull, rfl, htail⟩⟩

theorem legalRest_single (hv : isEllipsis v = false)
    (hnext : ∀ next ∈ more.head?, isEllipsis next = false) :
    LegalRest c n tail repeats (v :: more) =
      Both (LegalPattern c n v) (LegalRest c n tail repeats more) := by
  funext vars
  apply propext
  have hcount : (v :: more).countP isEllipsis = more.countP isEllipsis :=
    List.countP_cons_of_neg (by simp [hv])
  rw [LegalRest, LegalRest, hcount]
  constructor
  · rintro ⟨vs, ws, rfl, ⟨hitems, hone⟩, htail⟩
    cases hitems with
    | single h _ hmore =>
      exact ⟨_, _, List.append_assoc _ _ _, h, _, ws, rfl, ⟨hmore, hone⟩, htail⟩
    | repeated _ hdots _ => exact absurd hdots (by simp [hnext _ rfl])
  · rintro ⟨vs, rest, rfl, h, us, ws, rfl, ⟨hmore, hone⟩, htail⟩
    exact ⟨vs ++ us, ws, (List.append_assoc _ _ _).symm, ⟨.single h hnext hmore, hone⟩, htail⟩

theorem legalRest_repeated_iff {dots : Value} (hv : isEllipsis v = false)
    (hdots : isEllipsis dots = true) :
    LegalRest c n tail repeats (v :: dots :: more) vars ↔ repeats = false ∧
      Both (LegalPattern c (n + 1) v) (LegalRest c n tail true more) vars := by
  have hcount : (v :: dots :: more).countP isEllipsis = more.countP isEllipsis + 1 := by
    rw [List.countP_cons_of_neg (by simp [hv]), List.countP_cons_of_pos hdots]
  rw [LegalRest, LegalRest, hcount]
  constructor
  · rintro ⟨vs, ws, rfl, ⟨hitems, hone⟩, htail⟩
    have hrepeats : repeats = false := by
      cases repeats
      · rfl
      · simp at hone
    subst hrepeats
    refine ⟨rfl, ?_⟩
    cases hitems with
    | single _ hnext _ => exact absurd hdots (by simp [hnext _ rfl])
    | repeated h _ hmore =>
      refine ⟨_, _, List.append_assoc _ _ _, h, _, ws, rfl, ⟨hmore, hone⟩, ?_⟩
      exact htail.imp_right fun hdotted => absurd hdotted.2.1 (by simp)
  · rintro ⟨rfl, vs, rest, rfl, h, us, ws, rfl, ⟨hmore, hone⟩, htail⟩
    refine ⟨vs ++ us, ws, (List.append_assoc _ _ _).symm, ⟨.repeated h hdots hmore, hone⟩, ?_⟩
    exact htail.imp_right fun hdotted => absurd hdotted.2.1 (by simp)

theorem not_fresh_of_ellipsis (hv : isEllipsis v = true) {seen : Depths} :
    ¬ Fresh seen (LegalRest c n tail repeats (v :: more)) := by
  rintro ⟨-, ⟨vs, ws, -, ⟨hitems, -⟩, -⟩, -⟩
  cases hitems with
  | single h | repeated h => simp [h.not_ellipsis] at hv

/-- The items of a level are read in order, as far as each of its parts is decided. -/
theorem patternItems_decides {item : Nat → Value → Depths → Except Error (Pattern × Depths)}
    {part : Value → Prop} (hitem : ∀ n v seen, part v → (seen.map Prod.fst).Nodup →
      Decides c.name (item n v seen) (Fresh seen (LegalPattern c n v))
        fun q => Adding seen (LegalPattern c n v) q.2)
    (htail : part tail) {items : List Value} (hitems : ∀ v ∈ items, part v) {seen : Depths}
    (hseen : (seen.map Prod.fst).Nodup) :
    Decides c.name (patternItems c item n tail repeats items seen)
      (Fresh seen (LegalRest c n tail repeats items))
        fun q => Adding seen (LegalRest c n tail repeats items) q.2 := by
  induction repeats, items, seen using patternItems.induct tail with
  | case1 repeats seen hnull =>
    rw [patternItems, if_pos hnull]
    exact adding_nil hseen fun vars => by simp [legalRest_nil_iff, isNull_iff.mp hnull]
  | case2 seen hnull =>
    -- No rest may follow a repetition.
    rw [patternItems, if_neg hnull, if_pos rfl]
    refine .refuse _ ?_
    rintro ⟨vars, h, -⟩
    rcases legalRest_nil_iff.mp h with ⟨rfl, -⟩ | ⟨-, hrepeats, -⟩
    · exact hnull rfl
    · cases hrepeats
  | case3 repeats seen hnull hrepeats =>
    rw [patternItems, if_neg hnull, if_neg hrepeats]
    have hrest : LegalRest c n tail repeats [] = LegalPattern c n tail := by
      funext vars
      have hnot : tail ≠ .null := fun heq => hnull (isNull_iff.mpr heq)
      simp [legalRest_nil_iff, hnot, hrepeats]
    rw [hrest]
    exact (hitem n tail seen htail hseen).wrap
  | case4 repeats v seen hv =>
    -- There is no item that the ellipsis belongs to.
    rw [patternItems, if_pos hv]
    exact .refuse _ (not_fresh_of_ellipsis hv)
  | case5 repeats v seen hv ih =>
    rw [patternItems, if_neg hv, legalRest_single (Bool.eq_false_iff.mpr hv) (by simp)]
    obtain ⟨hv', hmore⟩ := List.forall_mem_cons.mp hitems
    exact (hitem n v seen hv' hseen).both fun q hq => (ih q.2 hmore hq).wrap
  | case6 repeats v next more seen hv =>
    rw [patternItems, if_pos hv]
    exact .refuse _ (not_fresh_of_ellipsis hv)
  | case7 v next more seen hv hnext =>
    -- One level has one ellipsis at most.
    rw [patternItems, if_neg hv, if_pos hnext]
    refine .refuse _ ?_
    rintro ⟨vars, h, -⟩
    cases ((legalRest_repeated_iff (Bool.eq_false_iff.mpr hv) hnext).mp h).1
  | case8 repeats v next more seen hv hnext hrepeats ih =>
    rw [patternItems, if_neg hv, if_pos hnext, if_neg hrepeats]
    have hrest : LegalRest c n tail repeats (v :: next :: more) =
        Both (LegalPattern c (n + 1) v) (LegalRest c n tail true more) := by
      funext vars
      simp [legalRest_repeated_iff (Bool.eq_false_iff.mpr hv) hnext, hrepeats]
    rw [hrest]
    obtain ⟨hv', hmore⟩ := List.forall_mem_cons.mp hitems
    exact (hitem (n + 1) v seen hv' hseen).both fun q hq =>
      (ih q.2 (List.forall_mem_cons.mp hmore).2 hq).wrap
  | case9 repeats v next more seen hv hnext ih =>
    rw [patternItems, if_neg hv, if_neg hnext, legalRest_single (Bool.eq_false_iff.mpr hv)
      (by simpa using hnext)]
    obtain ⟨hv', hmore⟩ := List.forall_mem_cons.mp hitems
    exact (hitem n v seen hv' hseen).both fun q hq => (ih q.2 hmore hq).wrap

theorem legalPattern_symbol {x : Symbol} (hdots : x.name ≠ ellipsis) :
    LegalPattern c n (.symbol x) = fun vars =>
      vars = if x.name = underscore ∨ c.isLiteral x then [] else [(x, n)] := by
  funext vars
  apply propext
  constructor
  · intro h
    cases h with
    | wildcard hx => simp [hx]
    | literal _ _ hx => simp [hx]
    | binder _ hwildcard hx => simp [hwildcard, hx]
    | constant hv => cases hv
  · rintro rfl
    split_ifs with hx
    · by_cases hwildcard : x.name = underscore
      · exact .wildcard hwildcard
      · exact .literal hdots hwildcard (hx.resolve_left hwildcard)
    · exact .binder hdots (fun h => hx (.inl h)) (Bool.eq_false_iff.mpr fun h => hx (.inr h))

theorem legalPattern_list {a : Address} {items : List Value}
    (hchain : c.store.Chain (.pair a) items tail) :
    LegalPattern c n (.pair a) = LegalRest c n tail false items := by
  funext vars
  rw [← legalLevel_iff]
  apply propext
  constructor
  · intro h
    cases h with
    | list hchain' h =>
      obtain ⟨rfl, rfl⟩ := hchain.unique hchain'
      exact h
    | constant hv => cases hv
  · exact .list hchain

theorem legalPattern_vector {a : Address} : LegalPattern c n (.vector a) =
    LegalRest c n .null false (c.store.vectorAt a).toList := by
  funext vars
  rw [← legalLevel_iff]
  apply propext
  constructor
  · intro h
    cases h with
    | vector h => exact h
    | constant hv => cases hv
  · exact .vector

theorem legalPattern_constant (hv : v.isConstant) :
    LegalPattern c n v = fun vars => vars = [] := by
  funext vars
  apply propext
  constructor
  · intro h
    cases h with
    | wildcard | constant => rfl
    | literal | binder | list | vector => cases hv
  · rintro rfl
    exact .constant hv

theorem exists_succ_of_within {s : Store} {fuel : Nat} {v : Value} (h : s.Within fuel v)
    (hv : (∃ a, v = .pair a) ∨ ∃ a, v = .vector a) : ∃ m, fuel = m + 1 := by
  cases fuel with
  | zero =>
    obtain ⟨a, rfl⟩ | ⟨a, rfl⟩ := hv
    · exact absurd rfl (h.1 a)
    · exact absurd rfl (h.2 a)
  | succ m => exact ⟨m, rfl⟩

theorem exists_chain_of_within {s : Store} {fuel : Nat} {v : Value} (h : s.Within fuel v) :
    ∃ items tail, s.Chain v items tail := by
  induction fuel generalizing v with
  | zero => exact ⟨[], v, .tail h.1⟩
  | succ fuel ih =>
    cases v with
    | pair a =>
      obtain ⟨items, tail, hchain⟩ := ih h.2
      exact ⟨_, tail, .pair hchain⟩
    | _ => exact ⟨[], _, .tail (by simp)⟩

theorem pattern_decides {fuel : Nat} {seen : Depths} (hv : c.store.Within fuel v)
    (hseen : (seen.map Prod.fst).Nodup) : Decides c.name (pattern c (fuel + 1) n v seen)
      (Fresh seen (LegalPattern c n v)) fun q => Adding seen (LegalPattern c n v) q.2 := by
  induction fuel using Nat.strongRecOn generalizing n v seen with
  | ind fuel ih =>
    cases v with
    | symbol x =>
      rw [pattern]
      split_ifs with hdots hwildcard hliteral hold
      · refine .refuse _ ?_
        rintro ⟨vars, h, -⟩
        exact absurd h.not_ellipsis (by simpa [isEllipsis, Value.isNamed] using hdots)
      · rw [legalPattern_symbol (by simpa using hdots), if_pos (.inl (by simpa using hwildcard))]
        exact adding_nil hseen fun vars => Iff.rfl
      · rw [legalPattern_symbol (by simpa using hdots), if_pos (.inr hliteral)]
        exact adding_nil hseen fun vars => Iff.rfl
      · rw [legalPattern_symbol (by simpa using hdots), if_neg (by simp_all)]
        refine .refuse _ ?_
        rintro ⟨-, rfl, hnodup⟩
        have hmem : x ∈ seen.map Prod.fst := by simpa using hold
        rw [List.map_append] at hnodup
        exact (List.nodup_append.mp hnodup).2.2 x hmem x (by simp) rfl
      · rw [legalPattern_symbol (by simpa using hdots), if_neg (by simp_all)]
        have hnew : x ∉ seen.map Prod.fst := by simpa using hold
        refine adding_single ?_ fun vars => Iff.rfl
        rw [List.map_append]
        exact hseen.append (List.nodup_singleton _) (by simpa using hnew)
    | pair a =>
      obtain ⟨m, rfl⟩ := exists_succ_of_within hv (.inl ⟨a, rfl⟩)
      obtain ⟨items, tail, hchain⟩ := exists_chain_of_within hv
      obtain ⟨hitems, htail⟩ := hv.parts hchain
      rw [pattern, Store.splitList?_eq_some.mpr hchain, legalPattern_list hchain]
      exact (patternItems_decides (fun n v seen hv hseen => ih m (Nat.lt_succ_self m) hv hseen)
        htail hitems hseen).wrap
    | vector a =>
      obtain ⟨m, rfl⟩ := exists_succ_of_within hv (.inr ⟨a, rfl⟩)
      rw [pattern, legalPattern_vector]
      exact (patternItems_decides (fun n v seen hv hseen => ih m (Nat.lt_succ_self m) hv hseen)
        (Store.within_leaf (by simp) (by simp)) hv hseen).wrap
    | _ =>
      rw [legalPattern_constant rfl]
      exact adding_nil hseen fun vars => Iff.rfl

end HygienicScheme.SyntaxRules
