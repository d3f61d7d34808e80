import HygienicScheme.Proofs.Errors.Basic
import HygienicScheme.Proofs.Expansion.Effects
import HygienicScheme.Proofs.SyntaxRules.Instances

/-!
# Compiled templates can be filled in

The compiler of templates compares two numbers, the ellipses around a use and the ellipses over the
variable in the pattern; filling in a template takes one layer off every sequence at every
ellipsis. Both agree, so that a variable is down to a single value where it is used. What may still
fail is a repetition that has nothing to repeat, or sequences of different lengths.
-/
namespace HygienicScheme

open SyntaxRules (Depths TemplateOf TemplateItemsOf)

mutual

def Template.Ready (depths : Depths) (n : Nat) : Template → Prop
  | .variable x => ∃ m, depths.lookup x = some m ∧ m ≤ n
  | .free _ | .constant _ => True
  | .list items | .vector items => items.Ready depths n

def TemplateSeq.Ready (depths : Depths) (n : Nat) : TemplateSeq → Prop
  | .done => True
  | .tail t => t.Ready depths n
  | .item t ellipses more => t.Ready depths (n + ellipses) ∧ more.Ready depths n

end

mutual

def Template.Plain : Template → Prop
  | .variable _ | .free _ | .constant _ => True
  | .list items | .vector items => items.Plain

def TemplateSeq.Plain : TemplateSeq → Prop
  | .done => True
  | .tail t => t.Plain
  | .item t ellipses more => ellipses = 0 ∧ t.Plain ∧ more.Plain

end

namespace SyntaxRules

variable {c : Scope} {depths : Depths}

mutual

theorem TemplateOf.ready : ∀ {escaped n v t}, TemplateOf c depths escaped n v t →
    t.Ready depths n
  | _, _, _, _, .use hx hn => ⟨_, hx, hn⟩
  | _, _, _, _, .free _ | _, _, _, _, .constant _ => trivial
  | _, _, _, _, .escape _ _ h => h.ready
  | _, _, _, _, .list _ h | _, _, _, _, .vector h => h.ready

theorem TemplateItemsOf.ready : ∀ {escaped n tail items ts},
    TemplateItemsOf c depths escaped n tail items ts → ts.Ready depths n
  | _, _, _, _, _, .done => trivial
  | _, _, _, _, _, .tail _ h => h.ready
  | _, _, _, _, _, .item _ _ h hmore => ⟨h.ready, hmore.ready⟩

end

end SyntaxRules

theorem mem_distinct {x : Symbol} {xs : List Symbol} : x ∈ distinct xs ↔ x ∈ xs := by
  induction xs with
  | nil => simp [distinct]
  | cons y more ih =>
    by_cases hx : x = y
    · simp [distinct, hx]
    · simp [distinct, hx, ih]

def Supplies (depths : Depths) (n : Nat) (vars : List Symbol) (bs : Bindings) : Prop :=
  ∀ x ∈ vars, ∀ m, depths.lookup x = some m → ∃ b, bs.lookup x = some b ∧ b.Uniform (m - n)

namespace MacroUse

/-- How a repetition goes wrong. -/
inductive Stuck (u : MacroUse) : Error → Prop
  | nothingToRepeat : Stuck u (.shape u.transformer.name .nothingToRepeat)
  | ambiguous {first second : String} {times others : Nat} (h : times ≠ others) :
      Stuck u (.ambiguous u.transformer.name first times second others)

variable {u : MacroUse} {E : Error → Prop} {depths : Depths} {bs row : Bindings}
  {vars : List Symbol} {ds : List (Symbol × List Binding)} {n : Nat}

theorem mem_drivers {d : Symbol × List Binding} :
    d ∈ drivers vars bs ↔ d.1 ∈ vars ∧ bs.lookup d.1 = some (.many d.2) := by
  obtain ⟨x, sequence⟩ := d
  rw [drivers, List.mem_filterMap]
  constructor
  · rintro ⟨y, hy, hd⟩
    split at hd
    · rename_i hlookup
      cases hd
      exact ⟨hy, hlookup⟩
    · cases hd
  · rintro ⟨hx, hlookup⟩
    refine ⟨x, hx, ?_⟩
    dsimp only at hlookup
    rw [hlookup]

theorem rounds_eq (n : Nat) (ds : List (Symbol × List Binding)) :
    rounds n ds = (List.range n).map fun i => ds.filterMap fun d => d.2[i]?.map (d.1, ·) := by
  induction n generalizing ds with
  | zero => rfl
  | succ n ih =>
    rw [rounds, ih, List.range_succ_eq_map, List.map_cons, List.map_map]
    congr 1
    · refine List.filterMap_congr fun d _ => ?_
      dsimp only
      rw [List.head?_eq_getElem?]
    · refine List.map_congr_left fun i _ => ?_
      rw [List.filterMap_map]
      exact List.filterMap_congr fun d _ => by simp

/-- Where all sequences are as long as there are rounds, a round has one entry of each. -/
theorem rounds_mem (hlength : ∀ d ∈ ds, d.2.length = n) (hrow : row ∈ rounds n ds) :
    row.map Prod.fst = ds.map Prod.fst ∧ ∀ b ∈ row, ∃ d ∈ ds, d.1 = b.1 ∧ b.2 ∈ d.2 := by
  rw [rounds_eq] at hrow
  obtain ⟨i, hi, rfl⟩ := List.mem_map.mp hrow
  constructor
  · clear hrow
    induction ds with
    | nil => rfl
    | cons d more ih =>
      obtain ⟨hd, hmore⟩ := List.forall_mem_cons.mp hlength
      have hlt : i < d.2.length := by
        rw [hd]
        exact List.mem_range.mp hi
      rw [List.filterMap_cons_some (by rw [List.getElem?_eq_getElem hlt]; rfl), List.map_cons,
        List.map_cons, ih hmore]
  · intro b hb
    obtain ⟨d, hd, hentry⟩ := List.mem_filterMap.mp hb
    obtain ⟨v, hv, rfl⟩ := Option.map_eq_some_iff.mp hentry
    exact ⟨d, hd, rfl, List.mem_of_getElem? hv⟩

theorem supplies_round {k : Nat} (h : Supplies depths n vars bs)
    (hlength : ∀ d ∈ drivers vars bs, d.2.length = k) (hrow : row ∈ rounds k (drivers vars bs)) :
    Supplies depths (n + 1) vars (row ++ bs) := by
  obtain ⟨hkeys, hentries⟩ := rounds_mem hlength hrow
  intro x hx m hm
  obtain ⟨b, hb, huniform⟩ := h x hx m hm
  rw [List.lookup_append]
  generalize hlayers : m - n = layers at huniform
  cases hlookup : row.lookup x with
  | some b' =>
    obtain ⟨d, hd, rfl, hmem⟩ := hentries (x, b') (SyntaxRules.mem_of_lookup hlookup)
    cases hb.symm.trans (mem_drivers.mp hd).2
    cases huniform with
    | @many layers _ hsequence =>
      obtain rfl : m - (n + 1) = layers := by omega
      exact ⟨b', rfl, hsequence b' hmem⟩
  | none =>
    refine ⟨b, hb, ?_⟩
    cases huniform with
    | one =>
      rw [show m - (n + 1) = 0 by omega]
      exact .one
    | @many layers sequence _ =>
      -- A variable with a layer takes part in the round.
      have hdriver : (x, sequence) ∈ drivers vars bs := mem_drivers.mpr ⟨hx, hb⟩
      have hkey : x ∈ row.map Prod.fst := hkeys ▸ List.mem_map_of_mem hdriver
      obtain ⟨entry, hentry, rfl⟩ := List.mem_map.mp hkey
      exact absurd rfl (bne_iff_ne.mp (List.lookup_eq_none_iff.mp hlookup entry hentry))

theorem repeated_failsWith {emit : Bindings → Action Value} {k : Nat}
    (hemit : ∀ bs, Supplies depths (n + k) vars bs → (emit bs).FailsWith E)
    (hE : k = 0 ∨ ∀ e, u.Stuck e → E e) (hbs : Supplies depths n vars bs) :
    (u.repeated vars emit k bs).FailsWith E := by
  induction k generalizing n bs with
  | zero => exact (hemit bs hbs).bind fun v => .pure [v]
  | succ k ih =>
    have hstuck := hE.resolve_left (Nat.succ_ne_zero k)
    unfold repeated
    have hround : ∀ {k row}, (∀ d ∈ drivers vars bs, d.2.length = k) →
        row ∈ rounds k (drivers vars bs) → Supplies depths (n + 1) vars (row ++ bs) :=
      supplies_round hbs
    generalize drivers vars bs = ds at hround
    cases ds with
    | nil => exact .throw (hstuck _ .nothingToRepeat)
    | cons d more =>
      obtain ⟨first, sequence⟩ := d
      dsimp only
      split
      · rename_i other others hfind
        have hlength := List.find?_some hfind
        exact .throw (hstuck _ (.ambiguous (bne_iff_ne.mp hlength).symm))
      · rename_i hfind
        have hlength : ∀ d ∈ (first, sequence) :: more, d.2.length = sequence.length :=
          List.forall_mem_cons.mpr
            ⟨rfl, fun d hd => by simpa using List.find?_eq_none.mp hfind d hd⟩
        refine Action.FailsWith.bind (.mapM fun row hrow => ?_) fun vss => .pure vss.flatten
        exact ih (fun bs hbs => hemit bs (by rwa [Nat.add_right_comm] at hbs))
          (.inr hstuck) (hround hlength hrow)

mutual

theorem transcribe_failsWith : ∀ {t : Template} {n : Nat} {bs : Bindings}, t.Ready depths n →
    t.Plain ∨ (∀ e, u.Stuck e → E e) → Supplies depths n t.occurrences bs →
    (u.transcribe t bs).FailsWith E
  | .variable x, n, bs, ⟨m, hm, hle⟩, _, hbs => by
    obtain ⟨b, hb, huniform⟩ := hbs x (List.mem_singleton_self x) m hm
    rw [Nat.sub_eq_zero_of_le hle] at huniform
    cases huniform with
    | one =>
      unfold transcribe
      rw [hb]
      exact .pure _
  | .free x, _, _, _, _, _ => by
    unfold transcribe
    intro s e t h
    cases h
  | .constant v, _, _, _, _, _ => by
    unfold transcribe
    exact .pure v
  | .list ts, _, _, ht, hE, hbs => by
    unfold transcribe
    exact (transcribeItems_failsWith ht hE hbs).bind fun _ => .lift _
  | .vector ts, _, _, ht, hE, hbs => by
    unfold transcribe
    exact (transcribeItems_failsWith ht hE hbs).bind fun _ => .lift _

theorem transcribeItems_failsWith : ∀ {ts : TemplateSeq} {n : Nat} {bs : Bindings},
    ts.Ready depths n → ts.Plain ∨ (∀ e, u.Stuck e → E e) → Supplies depths n ts.occurrences bs →
    (u.transcribeItems ts bs).FailsWith E
  | .done, _, _, _, _, _ => by
    unfold transcribeItems
    exact .pure _
  | .tail t, _, _, ht, hE, hbs => by
    unfold transcribeItems
    exact (transcribe_failsWith ht hE hbs).bind fun _ => .pure _
  | .item t k more, _, _, ht, hE, hbs => by
    unfold transcribeItems
    refine (repeated_failsWith (fun bs hbs => transcribe_failsWith ht.1 (hE.imp_left (·.2.1)) ?_)
      (hE.imp_left (·.1)) fun x hx => hbs x ?_).bind fun vs =>
        (transcribeItems_failsWith ht.2 (hE.imp_left (·.2.2)) fun x hx => hbs x ?_).bind fun _ =>
          .pure _
    · exact fun x hx => hbs x (mem_distinct.mpr hx)
    · exact List.mem_append_left _ (mem_distinct.mp hx)
    · exact List.mem_append_right _ hx

end

theorem failsWith_rule {c : SyntaxRules.Scope} {number : Nat} {v form : Value} {r : Rule}
    {s : Store} (hr : SyntaxRules.rule c number v = .ok r) (hbs : r.bindings s form = .ok bs)
    (hE : r.template.Plain ∨ ∀ e, u.Stuck e → E e) : (u.transcribe r.template bs).FailsWith E := by
  obtain ⟨-, hvars, hdepths⟩ := SyntaxRules.rule_shape hr
  obtain ⟨_, _, _, _, htemplate⟩ := SyntaxRules.ruleOf hr
  have hbinds := SyntaxRules.matchPattern_binds hvars hbs
  rw [← hdepths] at hbinds
  exact transcribe_failsWith htemplate.ready hE fun x _ m hm => hbinds.lookup hm

/-- Once a rule of a compiled transformer has matched, its template gives a value, or a repetition
in it goes wrong. Without an ellipsis it always gives a value. -/
theorem transcribe_matched {store s s' : Store} {name : String} {spec form : Value} {r : Rule}
    (hdefine : SyntaxRules.define store name spec = .ok u.transformer)
    (hr : r ∈ u.transformer.rules) (hbs : r.bindings s form = .ok bs) :
    (∃ v t, u.transcribe r.template bs s' = .ok v t) ∨
      ¬ r.template.Plain ∧ ∃ e t, u.transcribe r.template bs s' = .error e t ∧ u.Stuck e := by
  obtain ⟨clauses, -, hrules⟩ := SyntaxRules.define_rules hdefine
  obtain ⟨number, clause, -, hrule⟩ := hrules r hr
  cases hresult : u.transcribe r.template bs s' with
  | ok v t => exact .inl ⟨v, t, rfl⟩
  | error e t =>
    refine .inr ⟨fun hplain => ?_, e, t, rfl, ?_⟩
    · exact failsWith_rule (E := fun _ => False) hrule hbs (.inl hplain) s' e t hresult
    · exact failsWith_rule hrule hbs (.inr fun _ => id) s' e t hresult

section Examples

def each : Transformer where
  name := "each"
  literals := []
  rules := [{
    number := 1
    pattern := .list (.item .wildcard (.repeated (.variable (.user "x")) .done))
    template := .list (.item (.variable (.user "x")) 1 .done)
    depths := [(.user "x", 1)] }]

/-- Holds the specification of the transformer at its first pair and `(each 1 2)` from its tenth
pair on. -/
def eachUse : Store :=
  { Store.empty with
    pairs := #[⟨.name "syntax-rules", .pair 1⟩, ⟨.null, .pair 2⟩, ⟨.pair 3, .null⟩,
      ⟨.pair 5, .pair 4⟩, ⟨.pair 8, .null⟩, ⟨.name "_", .pair 6⟩, ⟨.name "x", .pair 7⟩,
      ⟨.name "...", .null⟩, ⟨.name "x", .pair 9⟩, ⟨.name "...", .null⟩,
      ⟨.name "each", .pair 11⟩, ⟨.int 1, .pair 12⟩, ⟨.int 2, .null⟩] }

theorem rule_each : SyntaxRules.rule ⟨eachUse, "each", []⟩ 1 (.pair 3) = .ok each.rules[0] := by
  have htemplate : SyntaxRules.template ⟨eachUse, "each", []⟩ [(.user "x", 1)] eachUse.walkBound
      false 0 (.pair 8) = .ok (.list (.item (.variable (.user "x")) 1 .done)) := by
    rw [show eachUse.walkBound = 224 + 1 from rfl, SyntaxRules.template,
      show eachUse.splitList? (.pair 8) = some ([.name "x", .name "..."], .null) from rfl]
    dsimp only [SyntaxRules.escapedTemplate?]
    rw [SyntaxRules.templateItems]
    change ((SyntaxRules.templateItems _ _ _ _ _ [] >>= _) >>= _) = _
    rw [SyntaxRules.templateItems]
    rfl
  exact congrArg (· >>= fun t => (.ok ⟨1, each.rules[0].pattern, t, [(.user "x", 1)]⟩ :
    Except Error Rule)) htemplate

theorem define_each : SyntaxRules.define eachUse "each" (.pair 0) = .ok each := by
  have hrules : SyntaxRules.rules ⟨eachUse, "each", []⟩ 1 [.pair 3] = .ok each.rules :=
    congrArg (· >>= fun r => (.ok [r] : Except Error (List Rule))) rule_each
  exact congrArg (· >>= fun rs => (.ok ⟨"each", [], rs⟩ : Except Error Transformer)) hrules

theorem transcribe_matched_each :
    (∃ v t, transcribe ⟨each, ⟨0, []⟩, 1, 0⟩ each.rules[0].template
      [(.user "x", .many [.one (.int 1), .one (.int 2)])] eachUse = .ok v t) ∨
    ¬ each.rules[0].template.Plain ∧ ∃ e t, transcribe ⟨each, ⟨0, []⟩, 1, 0⟩ each.rules[0].template
      [(.user "x", .many [.one (.int 1), .one (.int 2)])] eachUse = .error e t ∧
        Stuck ⟨each, ⟨0, []⟩, 1, 0⟩ e :=
  transcribe_matched define_each List.mem_cons_self
    (show each.rules[0].bindings eachUse (.pair 10) = _ from rfl)

end Examples

end MacroUse

end HygienicScheme
