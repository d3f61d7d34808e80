import HygienicScheme.Proofs.Derived.Recursion
import HygienicScheme.Proofs.Evaluation.Repeating

/-!
# Expanding `do`

A `do` form becomes a procedure that knows itself, by an identifier that the expansion introduced.
It has the variables as its parameters, and where the test does not hold it ends by a call of itself
with the steps as operands. Every step is marked first and expanded by a rule of its own: a variable
without a step stands for itself.
-/
namespace HygienicScheme

open Machine Store Sketch
open Expansion (firstMatch?)

structure Variable where
  name : Value
  init : Value
  step : Option Value

def Variable.next (x : Variable) : Value := x.step.getD x.name

structure Loop.Compiles (R : Value → Value → Prop) (L M : Loop) : Prop where
  vars : M.vars = L.vars
  inits : List.Forall₂ R L.inits M.inits
  steps : List.Forall₂ R L.steps M.steps
  test : R L.test M.test
  results : List.Forall₂ R L.results M.results
  commands : List.Forall₂ R L.commands M.commands

namespace Store

def IsVariable (s : Store) (v : Value) (x : Variable) : Prop :=
  s.properList? v = some (x.name :: x.init :: x.step.toList)

/-- What follows the keyword of a `do` form reads as this loop. -/
inductive IsLoop (s : Store) : List Value → Loop → Prop
  | intro {specs clause test : Value} {items results commands : List Value} {xs : List Variable}
      (hspecs : s.properList? specs = some items) (hxs : List.Forall₂ s.IsVariable items xs)
      (hclause : s.properList? clause = some (test :: results)) :
      IsLoop s (specs :: clause :: commands)
        ⟨xs.map (·.name), xs.map (·.init), xs.map (·.next), test, results, commands⟩

theorem IsLoop.lengths {s : Store} {vs : List Value} {L : Loop} (h : s.IsLoop vs L) :
    L.inits.length = L.vars.length ∧ L.steps.length = L.vars.length := by
  cases h with
  | intro => simp

end Store

namespace Sketch

/-- `(loop operand ...)` -/
abbrev again (x : Symbol) (operands : List Value) : Sketch :=
  .list (.atom (.symbol x) :: parts operands)

abbrev rounding (x : Symbol) (L : Loop) : Sketch :=
  .form "if" [.part L.test,
    .form "begin" (.form "if" [.atom (.bool false), .atom (.bool false)] :: parts L.results),
    .form "begin" (parts L.commands ++ [again x L.steps])]

abbrev looping (x : Symbol) (L : Loop) : Sketch :=
  .recursive (.atom (.symbol x)) (.form "lambda" [.list (parts L.vars), rounding x L])
    [again x L.inits]

variable {x : Symbol} {L : Loop} {vs : List Value} {ns : List String}

theorem legible_again (hx : x.isStamped) : (again x vs).Legible :=
  .list (plain_stamped hx) (List.forall_mem_cons.mpr ⟨.atom nofun, legible_parts⟩)

theorem legible_looping (hx : x.isStamped) (hvars : L.vars = ns.map Value.name) :
    (looping x L).Legible := by
  have hnothing : (form "if" [.atom (.bool false), .atom (.bool false)]).Legible :=
    legible_form (.inl rfl) (by simp [Legible.atom])
  have hresults : (form "begin" (form "if" [.atom (.bool false), .atom (.bool false)] ::
      parts L.results)).Legible :=
    legible_form (.inr rfl) (List.forall_mem_cons.mpr ⟨hnothing, legible_parts⟩)
  have hcommands : (form "begin" (parts L.commands ++ [again x L.steps])).Legible :=
    legible_form (.inr rfl) (List.forall_mem_append.mpr
      ⟨legible_parts, List.forall_mem_singleton.mpr (legible_again hx)⟩)
  have hround : (rounding x L).Legible :=
    legible_form (.inl rfl) (List.forall_mem_cons.mpr ⟨.part, List.forall_mem_cons.mpr
      ⟨hresults, List.forall_mem_singleton.mpr hcommands⟩⟩)
  refine legible_recursive .one ?_ (List.forall_mem_singleton.mpr (legible_again hx))
  rw [hvars]
  exact legible_lambda (List.forall_mem_singleton.mpr hround)

end Sketch

namespace Derived

open MacroUse SyntaxRules

variable {env : Environment} {last s t u : Store} {own more : Reserve} {v w : Value}
  {H T U W : Sketch} {L M : Loop} {x y : Symbol} {vs items : List Value} {xs : List Variable}
  {bound : List Symbol} {ns : List String}

section Drafting

theorem match_variables (h : List.Forall₂ s.IsVariable items xs) :
    matchProper s (.repeated (pattern [binds "var", binds "init"] (bindsAll "step")) .done) items =
      some [(.user "var", .many ((xs.map (·.name)).map .one)),
        (.user "init", .many ((xs.map (·.init)).map .one)),
        (.user "step", .many (xs.map fun x => .many (x.step.toList.map .one)))] := by
  have hrows : List.Forall₂ (fun v row => (matchPattern s
      (pattern [binds "var", binds "init"] (bindsAll "step")) v).toOption = some row) items
      (xs.map fun x => [(.user "var", .one x.name), (.user "init", .one x.init),
        (.user "step", .many (x.step.toList.map .one))]) := by
    rw [List.forall₂_map_right_iff]
    refine h.imp fun v x hv => ?_
    rw [matches_pattern whole_bindsAll, show s.properList? v = _ from hv]
    simp [matchProper_item]
  rw [matchProper_repeated hrows]
  have hvars : (pattern [binds "var", binds "init"] (bindsAll "step")).vars =
    [.user "var", .user "init", .user "step"] := rfl
  have hinit : (Symbol.user "init" == Symbol.user "var") = false := rfl
  have hstep : (Symbol.user "step" == Symbol.user "var") = false := rfl
  have hstep' : (Symbol.user "step" == Symbol.user "init") = false := rfl
  simp [gather, hvars, List.filterMap_map, Function.comp_def, hinit, hstep, hstep',
    List.lookup_cons]

theorem equal?_stepMark (id id' : Nat) : s.equal? (stepMark id) (stepMark id') = some true := by
  obtain ⟨n, hn⟩ := s.exists_walkBound
  rw [equal?, hn]
  rfl

@[simp] theorem matches_mark {id : Nat} : (matchPattern s (.constant (stepMark id))
    (stepMark 0)).toOption = some [] := by
  rw [matchPattern, equal?_stepMark, if_pos rfl]
  rfl

theorem drafts_step {x : Variable} (hstanding : Standing env last s) :
    Drafts env last own s
      (.form "do" (.atom (stepMark 0) :: .part x.name :: parts x.step.toList))
      fun U => ∃ w, U = .part w ∧ Becomes env s last x.next w := by
  have hm : doForm ∈ forms := by simp [forms]
  refine .use hstanding hm reads_list (.inl rfl) rfl ?_
  intro t more v vs hst hproper hvs r bs hfound hlast
  have hlater : ∀ {w : Value} ⦃u most⦄, t.Adds more u most → Drafts env last most u (.part w)
      fun U => ∃ w', U = .part w' ∧ Becomes env s last w w' := by
    intro w u most hadds
    refine Drafts.part.mono ?_
    rintro U ⟨w', rfl, hw'⟩
    exact ⟨w', rfl, hw'.earlier (hst.trans hadds).expands⟩
  -- The mark is a string where the rule of the loop itself wants a list.
  have hfirst : ∀ {vs : List Value},
      t.properList? v = some (.symbol (.user "do") :: stepMark 0 :: vs) →
        (matchPattern t doForm.rules[0].pattern v).toOption = none := by
    intro vs hproper
    have hstring : t.properList? (stepMark 0) = none := rfl
    change (matchPattern t (pattern _ (bindsAll "command")) v).toOption = none
    rw [matches_pattern whole_bindsAll, hproper]
    simp [matchProper_item, matches_repeated, hstring]
  cases hvs with
  | @cons mark _ vs _ hmark hvs =>
    obtain rfl := hmark.eq_of_atom
    cases hvs with
    | @cons name _ vs _ hname hvs =>
      obtain rfl := hname.eq_of_part
      obtain ⟨name, init, step⟩ := x
      cases step with
      | none =>
        cases hvs
        have hmatch : firstMatch? t v doForm.rules =
            some (doForm.rules[1], [(.user "x", .one name)]) := by
          refine (Expansion.firstMatch?_passes (hfirst hproper)).trans
            (Expansion.firstMatch?_matches ?_)
          change (matchPattern t (pattern _ .done) v).toOption = _
          rw [matches_pattern whole_done, hproper]
          simp [matchProper_item]
        cases hmatch.symm.trans hfound
        exact ⟨[(.user "x", .one (.part name))], .part name, .cons ⟨rfl, .one hname⟩ .nil, rfl,
          fun u most hadds _ => hlater hadds⟩
      | some next =>
        cases hvs with
        | @cons next _ _ _ hnext hvs =>
          cases hvs
          obtain rfl := hnext.eq_of_part
          have hmatch : firstMatch? t v doForm.rules =
              some (doForm.rules[2], [(.user "x", .one name), (.user "y", .one next)]) := by
            refine (Expansion.firstMatch?_passes (hfirst hproper)).trans
              ((Expansion.firstMatch?_passes ?_).trans (Expansion.firstMatch?_matches ?_))
            · change (matchPattern t (pattern _ .done) v).toOption = _
              rw [matches_pattern whole_done, hproper]
              simp [matchProper_item]
            · change (matchPattern t (pattern _ .done) v).toOption = _
              rw [matches_pattern whole_done, hproper]
              simp [matchProper_item]
          cases hmatch.symm.trans hfound
          exact ⟨[(.user "x", .one (.part name)), (.user "y", .one (.part next))], .part next,
            .cons ⟨rfl, .one hname⟩ (.cons ⟨rfl, .one hnext⟩ .nil), rfl,
            fun u most hadds _ => hlater hadds⟩

theorem forall₂_adds {α : Type} {f : α → List Value} {as : List α} (hs : s.Safe own)
    (hst : s.Adds own t more) (hvs : ∀ v ∈ vs, s.Guest own v)
    (h : List.Forall₂ (fun v a => s.properList? v = some (f a)) vs as) :
    List.Forall₂ (fun v a => t.properList? v = some (f a)) vs as := by
  induction h with
  | nil => exact .nil
  | cons ha _ ih =>
    obtain ⟨hv, hvs⟩ := List.forall_mem_cons.mp hvs
    exact .cons ((properList?_grows hs.known hv.known hst.expands.toGrows).trans ha) (ih hvs)

theorem isLoop_adds (hs : s.Safe own) (hst : s.Adds own t more) (hvs : ∀ v ∈ vs, s.Guest own v)
    (h : s.IsLoop vs L) : t.IsLoop vs L := by
  have hgrows : ∀ {v : Value} {items : List Value}, s.Guest own v → s.properList? v = some items →
      t.properList? v = some items := fun hv hitems =>
    (properList?_grows hs.known hv.known hst.expands.toGrows).trans hitems
  cases h with
  | intro hspecs hxs hclause =>
    obtain ⟨hguest, hvs⟩ := List.forall_mem_cons.mp hvs
    obtain ⟨hguest', -⟩ := List.forall_mem_cons.mp hvs
    exact .intro (hgrows hguest hspecs) (forall₂_adds hs hst (hs.items hguest hspecs) hxs)
      (hgrows hguest' hclause)

theorem guest_variable (hs : s.Safe own) (hitems : ∀ v ∈ items, s.Guest own v)
    (hxs : List.Forall₂ s.IsVariable items xs) : ∀ x ∈ xs, s.Guest own x.name ∧
      s.Guest own x.init ∧ ∀ v ∈ x.step.toList, s.Guest own v := by
  intro x hx
  obtain ⟨v, hv, hlist⟩ := exists_of_mem_right hxs hx
  obtain ⟨hname, hmore⟩ := List.forall_mem_cons.mp (hs.items (hitems v hv) hlist)
  exact ⟨hname, List.forall_mem_cons.mp hmore⟩

abbrev markedStep (x : Variable) : Sketch :=
  .form "do" (.atom (stepMark 0) :: .part x.name :: parts x.step.toList)

abbrev marked (y : Symbol) (xs : List Variable) (test : Value) (results commands : List Value) :
    Sketch :=
  .form "letrec" [.list [.list [.atom (.symbol y),
    .form "lambda" [.list (parts (xs.map (·.name))), .form "if" [.part test,
      .form "begin" (.form "if" [.atom (.bool false), .atom (.bool false)] :: parts results),
      .form "begin" (parts commands ++ [.list (.atom (.symbol y) :: xs.map markedStep)])]]]],
    again y (xs.map (·.init))]

abbrev iterated (xs : List Variable) (test : Value) (results commands : List Value) : Figures :=
  [(.user "var", .many ((parts (xs.map (·.name))).map .one)),
    (.user "init", .many ((parts (xs.map (·.init))).map .one)),
    (.user "step", .many (xs.map fun x => .many ((parts x.step.toList).map .one))),
    (.user "test", .one (.part test)), (.user "expr", .many ((parts results).map .one)),
    (.user "command", .many ((parts commands).map .one))]

theorem draw_do {use : MacroUse} {test : Value} {results commands : List Value}
    (hletrec : introduce use s (.user "letrec") = .user "letrec")
    (hdo : introduce use s (.user "do") = .user "do")
    (hloop : introduce use s (.user "loop") = y) :
    doForm.rules[0].template.draw (introduce use s) (iterated xs test results commands) =
      some (marked y xs test results commands) := by
  let step := template [brings "do", (.constant (stepMark 0), 0), puts "var", putsAll "step"]
  let gs : List (Symbol × (Variable → Figure)) :=
    [(.user "var", fun x => .one (.part x.name)),
      (.user "step", fun x => .many ((parts x.step.toList).map .one))]
  have hdrivers : Figures.drivers step.vars (iterated xs test results commands) =
      gs.map fun g => (g.1, xs.map g.2) := by
    change [(_, _), (_, _)] = _
    simp [gs, List.map_map, Function.comp_def]
  have hdraw : ∀ x ∈ xs, step.draw (introduce use s)
      ((gs.map fun g => (g.1, g.2 x)) ++ iterated xs test results commands) =
        some (markedStep x) := fun x _ =>
    draw_template (.identifier hdo (.constant (.variable_one rfl (.variable_last rfl))))
  have hsteps := DrawnTo.identifier hloop
    (.many (Figures.repeated_items (by simp [gs]) hdrivers hdraw) .nil)
  rw [List.append_nil] at hsteps
  have hnothing : DrawnTo (introduce use s) (iterated xs test results commands)
      [brings "if", bringsFalse, bringsFalse]
      [.atom (.name "if"), .atom (.bool false), .atom (.bool false)] :=
    .core rfl (.constant (.constant .nil))
  have hround : DrawnTo (introduce use s) (iterated xs test results commands)
      [brings "if", puts "test", nested [brings "begin", unspecifiedForm, putsAll "expr"],
        nested [brings "begin", putsAll "command", nested [brings "loop", (step, 1)]]] _ :=
    .core rfl (.variable_one rfl (.list (.core rfl (.list hnothing (.variable_last rfl)))
      (.list (.core rfl (.variable_many rfl (.list hsteps .nil))) .nil)))
  exact draw_template (.identifier hletrec
    (.list (.list (.identifier hloop (.list (.core rfl (.list (.variable_last rfl)
      (.list hround .nil))) .nil)) .nil) (.list (.identifier hloop (.variable_last rfl)) .nil)))

theorem replaces_do (hs : s.Safe own) (hstanding : Standing env last s)
    (hname : last.transformer? "loop" env.chain = none)
    {specs clause test head : Value} {results commands : List Value}
    (hproper : s.properList? v = some (head :: specs :: clause :: commands))
    (hspecs : s.properList? specs = some items) (hxs : List.Forall₂ s.IsVariable items xs)
    (hclause : s.properList? clause = some (test :: results))
    (hguests : ∀ v ∈ specs :: clause :: commands, s.Guest own v)
    {P : Sketch → Prop} (h : ∀ y ⦃t more⦄, y.isStamped → y.name = "loop" → s.Adds own t more →
      Drafts env last more t (marked y xs test results commands) P) :
    Replaces env last doForm s own v P := by
  intro r bs hfound hlast
  obtain ⟨hspecsGuest, hguests⟩ := List.forall_mem_cons.mp hguests
  obtain ⟨hclauseGuest, hcommands⟩ := List.forall_mem_cons.mp hguests
  obtain ⟨htest, hresults⟩ := List.forall_mem_cons.mp (hs.items hclauseGuest hclause)
  have hvariables := guest_variable hs (hs.items hspecsGuest hspecs) hxs
  have hmatch : firstMatch? s v doForm.rules = some (doForm.rules[0],
      [(.user "var", .many ((xs.map (·.name)).map .one)),
        (.user "init", .many ((xs.map (·.init)).map .one)),
        (.user "step", .many (xs.map fun x => .many (x.step.toList.map .one))),
        (.user "test", .one test), (.user "expr", .many (results.map .one)),
        (.user "command", .many (commands.map .one))]) := by
    refine Expansion.firstMatch?_matches ?_
    change (matchPattern s (pattern _ (bindsAll "command")) v).toOption = _
    rw [matches_pattern whole_bindsAll, hproper]
    simp [matchProper_item, matches_repeated, hspecs, hclause, match_variables hxs]
  cases hmatch.symm.trans hfound
  refine ⟨iterated xs test results commands, _, ?_, draw_do
    (hstanding.introduce_form (m := letrecForm) (by simp [forms]) rfl hlast)
    (hstanding.introduce_form (m := doForm) (by simp [forms]) rfl hlast)
    (introduce_fresh rfl rfl rfl hname hlast), fun t more hadds _ => h _ stamped_of_use rfl hadds⟩
  have hnames : ∀ v ∈ xs.map (·.name), s.Guest own v :=
    List.forall_mem_map.mpr fun x hx => (hvariables x hx).1
  have hinits : ∀ v ∈ xs.map (·.init), s.Guest own v :=
    List.forall_mem_map.mpr fun x hx => (hvariables x hx).2.1
  have hsteps : s.FitsAll own (xs.map fun x => .many (x.step.toList.map .one))
      (xs.map fun x => .many ((parts x.step.toList).map .one)) :=
    fitsAll_map fun x hx => fits_parts (hvariables x hx).2.2
  exact .cons ⟨rfl, fits_parts hnames⟩ (.cons ⟨rfl, fits_parts hinits⟩ (.cons ⟨rfl, .many hsteps⟩
    (.cons ⟨rfl, fits_part htest⟩ (.cons ⟨rfl, fits_parts hresults⟩
      (.cons ⟨rfl, fits_parts hcommands⟩ .nil)))))

theorem exists_of_forall₂_append {α β : Type} {R : α → β → Prop} {as bs : List α} {cs : List β}
    (h : List.Forall₂ R (as ++ bs) cs) :
    ∃ ds es, cs = ds ++ es ∧ List.Forall₂ R as ds ∧ List.Forall₂ R bs es :=
  ⟨_, _, (List.take_append_drop as.length cs).symm,
    (List.forall₂_take_append _ _ _ h.flip).flip, (List.forall₂_drop_append _ _ _ h.flip).flip⟩

theorem drafts_again {Ts : List Sketch} (hy : y.isStamped)
    (hname : last.transformer? y.name env.chain = none)
    (h : List.Forall₂ (Drafts env last own s) Ts
      (vs.map fun v U => ∃ w, U = .part w ∧ Becomes env s last v w)) :
    Drafts env last own s (.list (.atom (.symbol y) :: Ts))
      fun U => ∃ ws, U = again y ws ∧ List.Forall₂ (Becomes env s last) vs ws := by
  have hinert : Inert env last (.atom (.symbol y) :: Ts) := by
    rintro z (hz | hz) <;> cases hz
    exact ⟨hname, .inl hy⟩
  refine (Drafts.list hinert (.cons .atom h)).mono ?_
  rintro U ⟨Us, rfl, hUs⟩
  cases hUs with
  | cons hhead hUs =>
    obtain ⟨ws, rfl, hws⟩ := parts_of_drafts hUs
    exact ⟨ws, by rw [hhead], hws⟩

theorem drafts_round (hstanding : Standing env last s) (hy : y.isStamped)
    (hname : last.transformer? y.name env.chain = none) (xs : List Variable) (test : Value)
    (results commands : List Value) : Drafts env last own s (.form "if" [.part test,
      .form "begin" (.form "if" [.atom (.bool false), .atom (.bool false)] :: parts results),
      .form "begin" (parts commands ++ [.list (.atom (.symbol y) :: xs.map markedStep)])])
      fun U => ∃ M : Loop, U = rounding y M ∧ Becomes env s last test M.test ∧
        List.Forall₂ (Becomes env s last) results M.results ∧
        List.Forall₂ (Becomes env s last) commands M.commands ∧
        List.Forall₂ (Becomes env s last) (xs.map (·.next)) M.steps := by
  have hsteps : List.Forall₂ (Drafts env last own s) (xs.map markedStep)
      ((xs.map (·.next)).map fun v U => ∃ w, U = .part w ∧ Becomes env s last v w) := by
    rw [List.map_map, List.forall₂_map_left_iff, List.forall₂_map_right_iff, List.forall₂_same]
    exact fun _ _ => drafts_step hstanding
  have hagain : List.Forall₂ (Drafts env last own s)
      [.list (.atom (.symbol y) :: xs.map markedStep)] _ :=
    .cons (drafts_again hy hname hsteps) .nil
  have hcommands : List.Forall₂ (Drafts env last own s) (parts commands ++ _) _ :=
    List.rel_append drafts_parts hagain
  have hresults : List.Forall₂ (Drafts env last own s) (_ :: parts results) _ :=
    .cons (drafts_unspecified hstanding) drafts_parts
  refine (drafts_branch hstanding .part (drafts_form (.inr rfl) hstanding hresults)
    (.cons (drafts_form (.inr rfl) hstanding hcommands) .nil)).mono ?_
  rintro U ⟨_, _, Us, rfl, ⟨test', rfl, htest⟩, ⟨Rs, rfl, hRs⟩, hUs⟩
  rcases hUs with _ | ⟨⟨Cs, rfl, hCs⟩, _ | _⟩
  obtain ⟨Ds, Es, rfl, hDs, hEs⟩ := exists_of_forall₂_append hCs
  obtain ⟨commands', rfl, hcommands⟩ := parts_of_drafts hDs
  cases hRs with
  | cons hfirst hRs =>
    obtain rfl := hfirst
    obtain ⟨results', rfl, hresults⟩ := parts_of_drafts hRs
    cases hEs with
    | cons hagain hEs =>
      cases hEs
      obtain ⟨steps', rfl, hsteps⟩ := hagain
      exact ⟨⟨[], [], steps', test', results', commands'⟩, rfl, htest, hresults, hcommands, hsteps⟩

theorem drafts_do (hs : s.Safe own) (hstanding : Standing env last s)
    (hname : last.transformer? "loop" env.chain = none) (hvs : ∀ v ∈ vs, s.Guest own v)
    (hL : s.IsLoop vs L) (hreads : Reads own s T (H :: vs.map .part))
    (hH : H = .atom (.symbol x) ∨ H = .part (.symbol x)) (hx : x.name = "do") :
    Drafts env last own s T fun U => ∃ y M, U = looping y M ∧ y.isStamped ∧ y.name = "loop" ∧
      L.Compiles (Becomes env s last) M := by
  have hm : doForm ∈ forms := by simp [forms]
  refine .use hstanding hm hreads hH hx ?_
  intro t more v vs' hst hproper hlooks
  obtain ⟨rfl, hguests⟩ := lookAll_parts.mp hlooks
  cases isLoop_adds hs hst hvs hL with
  | @intro specs clause test items results commands xs hspecs hxs hclause =>
    refine replaces_do hst.safe (hstanding.later hst) hname hproper hspecs hxs hclause hguests ?_
    rintro y u most hy hyname hu
    have hsu := hst.trans hu
    have hlater := hstanding.later hsu
    rw [← hyname] at hname
    have hinits : Drafts env last most u (again y (xs.map (·.init))) _ :=
      drafts_again hy hname drafts_parts
    have hround : Drafts env last most u _ _ :=
      drafts_round hlater hy hname xs test results commands
    have hprocedure := Drafts.binding (T := .list (parts (xs.map (·.name)))) (.inl rfl)
      (hlater.core "lambda" rfl) (.cons hround .nil)
    refine (drafts_letrec (N := .atom (.symbol y)) hlater hprocedure (.cons hinits .nil)).mono ?_
    rintro U ⟨C, Cs, rfl, ⟨Us, rfl, hUs⟩, hCs⟩
    have hearlier : ∀ {v w : Value}, Becomes env u last v w → Becomes env s last v w :=
      fun h => h.earlier hsu.expands
    cases hUs with
    | cons hround hUs =>
      cases hUs
      cases hCs with
      | cons hcall hCs =>
        cases hCs
        obtain ⟨inits', rfl, hinits'⟩ := hcall
        obtain ⟨M, rfl, htest, hresults, hcommands, hsteps⟩ := hround
        refine ⟨y, { M with vars := xs.map (·.name), inits := inits' }, rfl, hy, hyname, ?_⟩
        exact {
          vars := rfl
          inits := hinits'.imp fun _ _ => hearlier
          steps := hsteps.imp fun _ _ => hearlier
          test := hearlier htest
          results := hresults.imp fun _ _ => hearlier
          commands := hcommands.imp fun _ _ => hearlier }

end Drafting

section Settling

theorem settled_again (hstamped : y.isStamped) (hy : y ∈ bound)
    (h : Settled bound s u (again y vs) W) :
    ∃ ws, W = again y ws ∧ List.Forall₂ (Treated (Renaming.code bound) s u) vs ws := by
  have hquote : Sketch.atom (.symbol y) ≠ .atom (.name "quote") := by
    rintro ⟨⟩
    cases hstamped
  obtain ⟨Y, Us, rfl, hY, hUs⟩ := settled_of_list hquote h
  obtain rfl := settled_of_atom hY
  obtain ⟨ws, rfl, hws⟩ := settled_of_parts hUs
  rw [settledAtom_bound hy]
  exact ⟨ws, rfl, hws⟩

theorem settled_round (hstamped : y.isStamped) (hy : y ∈ bound)
    (h : Settled bound s u (rounding y L) W) : ∃ M : Loop, W = rounding y M ∧
      Treated (Renaming.code bound) s u L.test M.test ∧
      List.Forall₂ (Treated (Renaming.code bound) s u) L.results M.results ∧
      List.Forall₂ (Treated (Renaming.code bound) s u) L.commands M.commands ∧
      List.Forall₂ (Treated (Renaming.code bound) s u) L.steps M.steps := by
  obtain ⟨_, _, Us, rfl, htest, hyes, hUs⟩ := settled_of_branch h
  obtain ⟨test, rfl, htest'⟩ := settled_of_part htest
  obtain ⟨Rs, rfl, hRs⟩ := settled_of_form (by simp) hyes
  rcases hUs with _ | ⟨hno, _ | _⟩
  obtain ⟨Cs, rfl, hCs⟩ := settled_of_form (by simp) hno
  obtain ⟨Ds, Es, rfl, hDs, hEs⟩ := exists_of_forall₂_append hCs
  obtain ⟨commands, rfl, hcommands⟩ := settled_of_parts hDs
  cases hRs with
  | cons hnothing hRs =>
    obtain ⟨results, rfl, hresults⟩ := settled_of_parts hRs
    obtain rfl := settled_of_unspecified hnothing
    cases hEs with
    | cons hagain hEs =>
      cases hEs
      obtain ⟨steps, rfl, hsteps⟩ := settled_again hstamped hy hagain
      exact ⟨⟨[], [], steps, test, results, commands⟩, rfl, htest', hresults, hcommands, hsteps⟩

theorem settled_looping (hstamped : y.isStamped) (hy : y ∈ bound)
    (hvars : L.vars = ns.map Value.name) (h : Settled bound s u (looping y L) W) :
    ∃ M, W = looping y M ∧ L.Compiles (Treated (Renaming.code bound) s u) M := by
  obtain ⟨N, C, Cs, rfl, hN, hC, hCs⟩ := settled_of_recursive h
  obtain rfl := settled_of_atom hN
  rw [settledAtom_bound hy]
  rw [hvars] at hC
  obtain ⟨Us, rfl, hUs⟩ := settled_of_lambda hC
  cases hUs with
  | cons hround hUs =>
    cases hUs
    obtain ⟨M, rfl, htest, hresults, hcommands, hsteps⟩ := settled_round hstamped hy hround
    cases hCs with
    | cons hcall hCs =>
      cases hCs
      obtain ⟨inits, rfl, hinits⟩ := settled_again hstamped hy hcall
      exact ⟨{ M with vars := ns.map Value.name, inits := inits }, rfl,
        ⟨hvars.symm, hinits, hsteps, htest, hresults, hcommands⟩⟩

end Settling

end Derived

end HygienicScheme
