import HygienicScheme.Proofs.Derived.Conditionals

/-!
# Expanding `case`

A `case` form whose key is an identifier is expanded clause by clause. What it becomes asks for each
clause whether the value of the identifier is among the data of the clause.
-/
namespace HygienicScheme

open Expansion (firstMatch?)

/-- A clause of a `case` form. It has data unless it is for everything else. -/
structure Arm where
  data : Option (List Value)
  body : List Value

namespace Arm

def ofItems? (s : Store) (last : Bool) : List Value → Option Arm
  | head :: next :: more =>
    if last && head.isNamed "else" then some ⟨none, next :: more⟩
    else (s.properList? head).map fun data => ⟨some data, next :: more⟩
  | _ => none

structure Compiles (D R : Value → Value → Prop) (a b : Arm) : Prop where
  data : Option.Rel (List.Forall₂ D) a.data b.data
  body : List.Forall₂ R a.body b.body

theorem Compiles.mono {D D' R R' : Value → Value → Prop} {a b : Arm} (h : a.Compiles D R b)
    (hD : ∀ v w, D v w → D' v w) (hR : ∀ v w, R v w → R' v w) : a.Compiles D' R' b where
  data := by
    obtain ⟨hdata, -⟩ := h
    generalize a.data = data at hdata ⊢
    generalize b.data = data' at hdata ⊢
    cases hdata with
    | none => exact .none
    | some hdata => exact .some (hdata.imp hD)
  body := h.body.imp hR

section Items

variable {s : Store} {last : Bool} {head next : Value} {more data : List Value}

theorem ofItems?_otherwise (h : (last && head.isNamed "else") = true) :
    ofItems? s last (head :: next :: more) = some ⟨none, next :: more⟩ := by
  unfold ofItems?
  exact if_pos h

theorem ofItems?_data (h : (last && head.isNamed "else") = false)
    (hdata : s.properList? head = some data) :
    ofItems? s last (head :: next :: more) = some ⟨some data, next :: more⟩ := by
  unfold ofItems?
  dsimp only
  rw [h, if_neg Bool.false_ne_true, hdata]
  rfl

theorem last_of_otherwise {items body : List Value}
    (h : ofItems? s last items = some ⟨none, body⟩) :
    last = true := by
  unfold ofItems? at h
  split at h
  · split at h
    · exact (Bool.and_eq_true_iff.mp ‹_›).1
    · obtain ⟨data, -, h⟩ := Option.map_eq_some_iff.mp h
      cases h
  · cases h

end Items

end Arm

namespace Store

def arm? (s : Store) (last : Bool) (v : Value) : Option Arm :=
  (s.properList? v).bind (Arm.ofItems? s last)

def arms? (s : Store) : List Value → Option (List Arm)
  | [] => some []
  | v :: more => do
    let a ← s.arm? more.isEmpty v
    let as ← s.arms? more
    return a :: as

end Store

namespace Derived

open Store Sketch MacroUse SyntaxRules

def chooses (x : Symbol) : List (Symbol × Arm) → Sketch
  | [] => .form "if" [.atom (.bool false), .atom (.bool false)]
  | (_, ⟨none, body⟩) :: _ => .form "begin" (parts body)
  | (y, ⟨some data, body⟩) :: more =>
    .form "if" (.list [.atom (.symbol y), .atom (.symbol x), .form "quote" [.list (parts data)]] ::
      .form "begin" (parts body) :: if more.isEmpty then [] else [chooses x more])

def DataBefore : List (Symbol × Arm) → Prop
  | [] => True
  | (_, a) :: more =>
    match a.data with
    | none => more = []
    | some _ => DataBefore more

variable {env : Environment} {last s t u : Store} {own more : Reserve} {v w clause head : Value}
  {H T U : Sketch} {vs ws items : List Value} {x y z : Symbol} {m : Transformer} {P : Sketch → Prop}

@[simp] theorem matches_list_bindsAll {name : String} :
    (matchPattern s (.list (bindsAll name)) v).toOption =
      (s.properList? v).map fun vs => [(.user name, .many (vs.map .one))] := by
  rw [bindsAll, matches_repeated]
  cases s.properList? v with
  | none => rfl
  | some vs => exact matchProper_bindsAll

abbrev later (x : Symbol) (vs : List Value) : List Sketch :=
  if vs.isEmpty then [] else [.form "case" (.atom (.symbol x) :: parts vs)]

section Rules

variable (hproper : s.properList? v = some (head :: .symbol x :: clause :: vs))

include hproper

theorem case_refuses (h : s.arm? vs.isEmpty clause = none) :
    firstMatch? s v caseForm.rules = none := by
  have hkey : s.properList? (.symbol x) = none := rfl
  cases hitems : s.properList? clause with
  | none => cases vs <;> simp [caseForm, hproper, hitems, hkey]
  | some items =>
    rcases items with _ | ⟨head, _ | ⟨next, rest⟩⟩
    · cases vs <;> simp [caseForm, hproper, hitems, hkey]
    · cases vs <;> simp [caseForm, hproper, hitems, hkey]
    · rw [arm?, hitems] at h
      simp only [Option.bind_some, Arm.ofItems?] at h
      split at h
      · cases h
      · have hnone : s.properList? head = none := Option.map_eq_none_iff.mp h
        cases vs <;> simp_all [caseForm]

variable {next : Value} {rest data : List Value}
  (hkey : s.Looks own (.symbol x) (.atom (.symbol x))) (hguests : ∀ w ∈ vs, s.Guest own w)
  (hcase : introduce ⟨caseForm, env, s.phase, s.uses⟩ s (.user "case") = .user "case")
  (hmemv : introduce ⟨caseForm, env, s.phase, s.uses⟩ s (.user "memv") = y)

theorem case_draws_otherwise {test : Value} (hvs : vs = [])
    (hkey : s.Looks own (.symbol x) (.atom (.symbol x)))
    (hitems : s.properList? clause = some (test :: next :: rest)) (helse : test.isNamed "else")
    (hclause : ∀ w ∈ test :: next :: rest, s.Guest own w) :
    Drawn env caseForm s own v (.form "begin" (parts (next :: rest))) := by
  subst hvs
  have hnone : s.properList? (.symbol x) = none := rfl
  have hmatch : firstMatch? s v caseForm.rules = some (caseForm.rules[2],
      [(.user "key", .one (.symbol x)), (.user "result1", .one next),
        (.user "result2", .many (rest.map .one))]) := by
    simp [caseForm, hproper, hitems, helse, hnone]
  refine ⟨_, _, [(.user "key", .one (.atom (.symbol x))), (.user "result1", .one (.part next)),
    (.user "result2", .many ((parts rest).map .one))], hmatch, .cons ⟨rfl, .one hkey⟩
      (.cons ⟨rfl, fits_part (hclause _ (.tail _ (.head _)))⟩
        (.cons ⟨rfl, fits_parts fun w hw => hclause w (.tail _ (.tail _ hw))⟩ .nil)), ?_⟩
  exact draw_template (.core rfl (.variable_one rfl (.variable_last rfl)))

include hguests hcase hmemv hkey

theorem case_draws_data (hitems : s.properList? clause = some (w :: next :: rest))
    (helse : (vs.isEmpty && w.isNamed "else") = false) (hdata : s.properList? w = some data)
    (hclause : ∀ w ∈ next :: rest, s.Guest own w) (hdatum : ∀ w ∈ data, s.Guest own w) :
    Drawn env caseForm s own v (.form "if"
      (.list [.atom (.symbol y), .atom (.symbol x), .form "quote" [.list (parts data)]] ::
        .form "begin" (parts (next :: rest)) :: later x vs)) := by
  have hnone : s.properList? (.symbol x) = none := rfl
  have hnext := fits_part (hclause _ (.head _))
  have hrest : s.Fits own (.many (rest.map .one)) (.many ((parts rest).map .one)) :=
    fits_parts fun w hw => hclause w (.tail _ hw)
  have hatoms := fits_parts hdatum
  cases vs with
  | nil =>
    have hmatch : firstMatch? s v caseForm.rules = some (caseForm.rules[3],
        [(.user "key", .one (.symbol x)), (.user "atoms", .many (data.map .one)),
          (.user "result1", .one next), (.user "result2", .many (rest.map .one))]) := by
      simp_all [caseForm]
    refine ⟨_, _, [(.user "key", .one (.atom (.symbol x))),
      (.user "atoms", .many ((parts data).map .one)), (.user "result1", .one (.part next)),
      (.user "result2", .many ((parts rest).map .one))], hmatch, .cons ⟨rfl, .one hkey⟩
        (.cons ⟨rfl, hatoms⟩ (.cons ⟨rfl, hnext⟩ (.cons ⟨rfl, hrest⟩ .nil))), ?_⟩
    exact draw_template (.core rfl (.list (.identifier hmemv (.variable_one rfl (.list
      (.core rfl (.list (.variable_last rfl) .nil)) .nil)))
      (.list (.core rfl (.variable_one rfl (.variable_last rfl))) .nil)))
  | cons d vs =>
    obtain ⟨hd, hvs⟩ := List.forall_mem_cons.mp hguests
    have hmatch : firstMatch? s v caseForm.rules = some (caseForm.rules[4],
        [(.user "key", .one (.symbol x)), (.user "atoms", .many (data.map .one)),
          (.user "result1", .one next), (.user "result2", .many (rest.map .one)),
          (.user "clause", .one d), (.user "clauses", .many (vs.map .one))]) := by
      simp_all [caseForm]
    refine ⟨_, _, [(.user "key", .one (.atom (.symbol x))),
      (.user "atoms", .many ((parts data).map .one)), (.user "result1", .one (.part next)),
      (.user "result2", .many ((parts rest).map .one)), (.user "clause", .one (.part d)),
      (.user "clauses", .many ((parts vs).map .one))], hmatch, .cons ⟨rfl, .one hkey⟩
        (.cons ⟨rfl, hatoms⟩ (.cons ⟨rfl, hnext⟩ (.cons ⟨rfl, hrest⟩ (.cons ⟨rfl, fits_part hd⟩
          (.cons ⟨rfl, fits_parts hvs⟩ .nil))))), ?_⟩
    exact draw_template (.core rfl (.list (.identifier hmemv (.variable_one rfl (.list
      (.core rfl (.list (.variable_last rfl) .nil)) .nil)))
      (.list (.core rfl (.variable_one rfl (.variable_last rfl)))
        (.list
          (.identifier hcase (.variable_one rfl (.variable_one rfl (.variable_last rfl)))) .nil))))

end Rules

section Reading

variable (hs : s.Safe own) (hst : s.Adds own t more)

include hs hst

theorem arm?_adds (hv : s.Guest own v) (isLast : Bool) : t.arm? isLast v = s.arm? isLast v := by
  rw [arm?, arm?, properList?_grows hs.known hv.known hst.expands.toGrows]
  cases hitems : s.properList? v with
  | none => rfl
  | some items =>
    have hguests := hs.items hv hitems
    rw [Option.bind_some, Option.bind_some]
    match items with
    | [] | [_] => rfl
    | head :: next :: rest =>
      rw [Arm.ofItems?, Arm.ofItems?,
        properList?_grows hs.known (hguests _ (.head _)).known hst.expands.toGrows]

theorem arms?_adds (hvs : ∀ v ∈ vs, s.Guest own v) : t.arms? vs = s.arms? vs := by
  induction vs with
  | nil => rfl
  | cons v vs ih =>
    obtain ⟨hv, hvs⟩ := List.forall_mem_cons.mp hvs
    rw [arms?, arms?, arm?_adds hs hst hv, ih hvs]

end Reading

theorem length_arms? {as : List Arm} (h : s.arms? vs = some as) : as.length = vs.length := by
  induction vs generalizing as with
  | nil =>
    cases h
    rfl
  | cons v vs ih =>
    obtain ⟨a, -, h⟩ := Option.bind_eq_some_iff.mp h
    obtain ⟨as, has, h⟩ := Option.bind_eq_some_iff.mp h
    cases h
    exact congrArg Nat.succ (ih has)

structure Armed (env : Environment) (last s : Store) (vs : List Value) (as : List Arm)
    (bs : List (Symbol × Arm)) : Prop where
  read : s.arms? vs = some as
  compiles : List.Forall₂ (fun a b => a.Compiles Eq (Becomes env s last) b.2) as bs
  introduced : ∀ b ∈ bs, b.1.isStamped ∧ b.1.name = "memv"
  ordered : DataBefore bs

theorem Armed.isEmpty {as : List Arm} {bs : List (Symbol × Arm)} (h : Armed env last s vs as bs) :
    bs.isEmpty = vs.isEmpty := by
  have hlength := h.compiles.length_eq.symm.trans (length_arms? h.read)
  rw [Bool.eq_iff_iff, List.isEmpty_iff_length_eq_zero, List.isEmpty_iff_length_eq_zero, hlength]

theorem Armed.nil : Armed env last s [] [] [] where
  read := by rw [arms?]
  compiles := .nil
  introduced _ hb := absurd hb List.not_mem_nil
  ordered := trivial

theorem Armed.cons {a b : Arm} {as : List Arm} {bs : List (Symbol × Arm)}
    (ha : s.arm? vs.isEmpty v = some a) (hcompiles : a.Compiles Eq (Becomes env s last) b)
    (hy : y.isStamped ∧ y.name = "memv") (h : Armed env last s vs as bs) :
    Armed env last s (v :: vs) (a :: as) ((y, b) :: bs) where
  read := by
    rw [arms?, ha, h.read]
    rfl
  compiles := .cons hcompiles h.compiles
  introduced := List.forall_mem_cons.mpr ⟨hy, h.introduced⟩
  ordered := by
    rw [DataBefore]
    cases hdata : b.data with
    | some data => exact h.ordered
    | none =>
      obtain ⟨items, -, hitems⟩ := Option.bind_eq_some_iff.mp ha
      have hnone : a.data = none := by
        have hrel := hcompiles.data
        rw [hdata] at hrel
        generalize a.data = read at hrel ⊢
        cases hrel
        rfl
      obtain ⟨data, body⟩ := a
      obtain rfl : data = none := hnone
      exact List.isEmpty_iff.mp (h.isEmpty.trans (Arm.last_of_otherwise hitems))

theorem Armed.earlier {as : List Arm} {bs : List (Symbol × Arm)} (h : Armed env last t vs as bs)
    (hs : s.Safe own) (hst : s.Adds own t more) (hvs : ∀ v ∈ vs, s.Guest own v) :
    Armed env last s vs as bs where
  read := (arms?_adds hs hst hvs).symm.trans h.read
  compiles := h.compiles.imp fun _ _ ha => ha.mono (fun _ _ => id) fun _ _ hw =>
    hw.earlier hst.expands
  introduced := h.introduced
  ordered := h.ordered

def Choice (env : Environment) (last s : Store) (x : Symbol) (vs : List Value)
    (U : Sketch) : Prop :=
  ∃ as bs, U = chooses x bs ∧ Armed env last s vs as bs

theorem drafts_later (h : vs ≠ [] → Drafts env last own s
      (.form "case" (.atom (.symbol x) :: parts vs)) (Choice env last t x vs)) :
    ∃ Rs, List.Forall₂ (Drafts env last own s) (later x vs) Rs ∧
      ∀ Us, List.Forall₂ (fun (Q : Sketch → Prop) U => Q U) Rs Us → ∃ as bs,
        Us = (if bs.isEmpty then [] else [chooses x bs]) ∧ Armed env last t vs as bs := by
  cases vs with
  | nil =>
    refine ⟨[], .nil, fun Us hUs => ?_⟩
    cases hUs
    exact ⟨[], [], rfl, .nil⟩
  | cons v vs =>
    refine ⟨_, .cons (h (by simp)) .nil, fun Us hUs => ?_⟩
    cases hUs with
    | cons hU hUs =>
      cases hUs
      obtain ⟨as, bs, rfl, harmed⟩ := hU
      refine ⟨as, bs, ?_, harmed⟩
      rw [harmed.isEmpty]
      rfl

theorem drafts_asked {data : List Sketch} (hstanding : Standing env last s) (hy : y.isStamped)
    (hplain : last.transformer? y.name env.chain = none) :
    Drafts env last own s (.list [.atom (.symbol y), .atom (.symbol x), .form "quote" data])
      (· = .list [.atom (.symbol y), .atom (.symbol x), .form "quote" data]) := by
  have hinert : Inert env last [.atom (.symbol y), .atom (.symbol x), .form "quote" data] := by
    rintro z (hz | hz)
    · cases hz
      exact ⟨hplain, .inl hy⟩
    · cases hz
  refine (Drafts.list hinert (.cons .atom (.cons .atom
    (.cons (.quote (hstanding.core "quote" rfl)) .nil)))).mono ?_
  rintro U ⟨Us, rfl, hUs⟩
  cases hUs with
  | cons h hUs =>
    cases hUs with
    | cons h' hUs =>
      cases hUs with
      | cons h'' hUs =>
        cases hUs
        rw [h, h', h'']

section Replacing

variable (hstanding : Standing env last t)
  (hproper : t.properList? v = some (head :: .symbol x :: clause :: vs))
  (hkey : t.Looks own (.symbol x) (.atom (.symbol x)))
  {next : Value} {rest data : List Value}

include hproper hkey hstanding

theorem replaces_case_otherwise {test : Value} (hnil : vs = [])
    (hitems : t.properList? clause = some (test :: next :: rest)) (helse : test.isNamed "else")
    (hguests : ∀ w ∈ test :: next :: rest, t.Guest own w) :
    Replaces env last caseForm t own v (Choice env last t x (clause :: vs)) := by
  refine Drawn.replaces (fun _ => case_draws_otherwise hproper hnil hkey hitems helse hguests) ?_
  intro _ u more hst
  refine (drafts_sequence (hstanding.later hst)).mono ?_
  rintro U ⟨ws, rfl, hws⟩
  subst hnil
  have hread : t.arm? ([] : List Value).isEmpty clause = some ⟨none, next :: rest⟩ := by
    rw [arm?, hitems]
    exact Arm.ofItems?_otherwise helse
  exact ⟨_, [(⟨"memv", t.phase, t.uses⟩, ⟨none, ws⟩)], rfl,
    .cons hread ⟨.none, hws.imp fun _ _ hw => hw.earlier hst.expands⟩ ⟨stamped_of_use, rfl⟩ .nil⟩

theorem replaces_case_data (hvs : ∀ w ∈ vs, t.Guest own w)
    (hmemv : last.transformer? "memv" env.chain = none)
    (hrest : vs ≠ [] → ∀ ⦃u more⦄, t.Adds own u more → Drafts env last more u
      (.form "case" (.atom (.symbol x) :: parts vs)) (Choice env last t x vs))
    (hitems : t.properList? clause = some (w :: next :: rest))
    (helse : (vs.isEmpty && w.isNamed "else") = false) (hdata : t.properList? w = some data)
    (hguests : ∀ w ∈ next :: rest, t.Guest own w) (hdatum : ∀ w ∈ data, t.Guest own w) :
    Replaces env last caseForm t own v (Choice env last t x (clause :: vs)) := by
  have hcase : caseForm ∈ forms := by simp [forms]
  refine Drawn.replaces (fun hlast => case_draws_data hproper hkey hvs
    (hstanding.introduce_form hcase rfl hlast) (introduce_fresh rfl rfl rfl hmemv hlast)
      hitems helse
    hdata hguests hdatum) ?_
  intro _ u more hst
  have hlater := hstanding.later hst
  obtain ⟨Rs, hRs, hmore⟩ := drafts_later (t := t) fun hne => hrest hne hst
  refine (drafts_branch hlater (drafts_asked hlater stamped_of_use hmemv) (drafts_sequence hlater)
    hRs).mono ?_
  rintro U ⟨_, _, Us, rfl, rfl, ⟨ws, rfl, hws⟩, hUs⟩
  obtain ⟨as, bs, rfl, harmed⟩ := hmore _ hUs
  have hread : t.arm? vs.isEmpty clause = some ⟨some data, next :: rest⟩ := by
    rw [arm?, hitems]
    exact Arm.ofItems?_data helse hdata
  exact ⟨_, (⟨"memv", t.phase, t.uses⟩, ⟨some data, ws⟩) :: bs, rfl, .cons hread
    ⟨.some (List.forall₂_same.mpr fun _ _ => rfl), hws.imp fun _ _ hw => hw.earlier hst.expands⟩
    ⟨stamped_of_use, rfl⟩ harmed⟩

end Replacing

/-- A `case` form whose key is an identifier of the expansion becomes what its clauses stand for. -/
theorem drafts_case (hs : s.Safe own) (hstanding : Standing env last s)
    (hmemv : last.transformer? "memv" env.chain = none) (hguests : ∀ v ∈ vs, s.Guest own v) :
    Drafts env last own s (.form "case" (.atom (.symbol x) :: parts vs))
      (Choice env last s x vs) := by
  have hm : caseForm ∈ forms := by simp [forms]
  induction vs generalizing s own with
  | nil =>
    refine .use hstanding hm reads_list (.inl rfl) rfl ?_
    intro t more v vs hst hproper hvs
    cases hvs with
    | cons hkey hvs =>
      cases hvs
      obtain rfl := hkey.eq_of_atom
      have hnone : t.properList? (.symbol x) = none := rfl
      have hmatch : firstMatch? t v caseForm.rules = some (caseForm.rules[1],
          [(.user "key", .one (.symbol x))]) := by
        simp [caseForm, hproper, hnone]
      refine Drawn.replaces (T := .form "if" [.atom (.bool false), .atom (.bool false)]) (fun _ =>
        ⟨_, _, [(.user "key", .one (.atom (.symbol x)))], hmatch, .cons ⟨rfl, .one hkey⟩ .nil,
          draw_template (.core rfl (.constant (.constant .nil)))⟩) ?_
      intro _ u most hadds
      refine (drafts_unspecified (hstanding.later (hst.trans hadds))).mono ?_
      rintro U rfl
      exact ⟨[], [], rfl, .nil⟩
  | cons clause vs ih =>
    refine .use hstanding hm reads_list (.inl rfl) rfl ?_
    intro t more v vs' hst hproper hlooks
    cases hlooks with
    | cons hkey hlooks =>
      obtain rfl := hkey.eq_of_atom
      obtain ⟨rfl, hguests'⟩ := lookAll_parts.mp hlooks
      obtain ⟨hclause, hvs⟩ := List.forall_mem_cons.mp hguests'
      have hlater := hstanding.later hst
      -- Which rule takes the use is decided by what its first clause is.
      have hreplaces : Replaces env last caseForm t more v
        (Choice env last t x (clause :: vs)) := by
        cases ha : t.arm? vs.isEmpty clause with
        | none => exact replaces_of_none (case_refuses hproper ha)
        | some a =>
          obtain ⟨items, hitems, ha'⟩ := Option.bind_eq_some_iff.mp ha
          have hparts := hst.safe.items hclause hitems
          rcases items with _ | ⟨w, _ | ⟨next, rest⟩⟩
          · cases ha'
          · cases ha'
          · cases helse : vs.isEmpty && w.isNamed "else" with
            | true =>
              obtain ⟨hnil, hnamed⟩ := Bool.and_eq_true_iff.mp helse
              exact replaces_case_otherwise hlater hproper hkey (List.isEmpty_iff.mp hnil) hitems
                hnamed hparts
            | false =>
              unfold Arm.ofItems? at ha'
              dsimp only at ha'
              rw [helse, if_neg Bool.false_ne_true] at ha'
              obtain ⟨data, hdata, -⟩ := Option.map_eq_some_iff.mp ha'
              -- The clauses behind the first stand in a `case` form with the same key.
              refine replaces_case_data hlater hproper hkey hvs hmemv ?_ hitems helse hdata
                (fun w hw => hparts w (.tail _ hw)) (hst.safe.items (hparts _ (.head _)) hdata)
              intro hne u most htu
              refine (ih htu.safe (hlater.later htu) fun w hw => htu.guest (hvs w hw)).mono ?_
              rintro U ⟨as, bs, hU, harmed⟩
              exact ⟨as, bs, hU, harmed.earlier hst.safe htu hvs⟩
      refine hreplaces.mono ?_
      rintro U ⟨as, bs, hU, harmed⟩
      exact ⟨as, bs, hU, harmed.earlier hs hst hguests⟩

end Derived

end HygienicScheme
