import HygienicScheme.Proofs.Derived.Replacing

/-!
# Expanding `let` and `letrec`

A `let` form becomes the call of a procedure, a `letrec` form of one variable the call of a thunk
that defines the variable, and a `let` form with a tag the call of what such a `letrec` form gives.
-/
namespace HygienicScheme

open Expansion (firstMatch?)

namespace SyntaxRules

variable {s : Store} {p : Pattern} {after : PatternSeq} {vs : List Value} {rows : List Bindings}

theorem matchProper_repeated
    (h : List.Forall₂ (fun v row => (matchPattern s p v).toOption = some row) vs rows) :
    matchProper s (.repeated p after) vs = some (gather p.vars rows) := by
  have heach : matchEach (matchPattern s p) vs = .ok rows :=
    matchEach_ok_iff.mpr (h.imp fun _ _ hrow => toOption_eq_some.mp hrow)
  rw [matchProper, heach]
  rfl

end SyntaxRules

namespace Derived

open Store MacroUse SyntaxRules

variable {env : Environment} {last s t u : Store} {own more : Reserve} {v w : Value}
  {L B T U : Sketch} {Bs Ts Us Ps : List Sketch} {NVs : List (Sketch × Sketch)}
  {Qs Rs : List (Sketch → Prop)}

theorem read_pairs (hP : List.Forall₂ (fun P NV => Reads own s P [NV.1, NV.2]) Ps NVs)
    (hst : s.Adds own t more) {ps : List Value} (hps : LookAll t more ps Ps) :
    ∃ nvs : List (Value × Value),
      List.Forall₂ (fun p nv => t.properList? p = some [nv.1, nv.2]) ps nvs ∧
      LookAll t more (nvs.map Prod.fst) (NVs.map Prod.fst) ∧
      LookAll t more (nvs.map Prod.snd) (NVs.map Prod.snd) := by
  induction hP generalizing ps with
  | nil =>
    cases hps
    exact ⟨[], .nil, .nil, .nil⟩
  | cons hread _ ih =>
    cases hps with
    | cons hp hps =>
      obtain ⟨vs, hproper, hvs⟩ := hread hst hp
      obtain ⟨nvs, hall, hnames, hvals⟩ := ih hps
      cases hvs with
      | @cons n _ _ _ hn hvs =>
        cases hvs with
        | @cons v _ _ _ hv hvs =>
          cases hvs
          exact ⟨(n, v) :: nvs, .cons hproper hall, .cons hn hnames, .cons hv hvals⟩

theorem match_pairs {x y : String} (hxy : x ≠ y) {ps : List Value} {nvs : List (Value × Value)}
    (h : List.Forall₂ (fun p nv => s.properList? p = some [nv.1, nv.2]) ps nvs) :
    matchProper s (.repeated (pattern [binds x, binds y] .done) .done) ps =
      some [(.user x, .many ((nvs.map Prod.fst).map .one)),
        (.user y, .many ((nvs.map Prod.snd).map .one))] := by
  have hrows : List.Forall₂ (fun v row =>
      (matchPattern s (pattern [binds x, binds y] .done) v).toOption = some row) ps
      (nvs.map fun nv => [(.user x, .one nv.1), (.user y, .one nv.2)]) := by
    rw [List.forall₂_map_right_iff]
    refine h.imp fun p nv hp => ?_
    rw [matches_pattern whole_done, hp]
    simp [matchProper_item, matchProper_done]
  rw [matchProper_repeated hrows]
  have hvars : (pattern [binds x, binds y] .done).vars = [.user x, .user y] := rfl
  have hne : (Symbol.user y == Symbol.user x) = false := by
    simp [Symbol.user, Ne.symm hxy]
  simp [gather, hvars, List.filterMap_map, Function.comp_def, List.lookup_cons, hne]

theorem matches_bindings {x y : String} (hxy : x ≠ y) {keyword l b : Value} {ps : List Value}
    {nvs : List (Value × Value)} (hproper : s.properList? v = some (keyword :: l :: b :: vs))
    (hps : s.properList? l = some ps)
    (h : List.Forall₂ (fun p nv => s.properList? p = some [nv.1, nv.2]) ps nvs) :
    (matchPattern s (pattern [.wildcard, .list (.repeated (pattern [binds x, binds y] .done) .done),
      binds "body1"] (bindsAll "body2")) v).toOption =
      some [(.user x, .many ((nvs.map Prod.fst).map .one)),
        (.user y, .many ((nvs.map Prod.snd).map .one)), (.user "body1", .one b),
        (.user "body2", .many (vs.map .one))] := by
  have hpairs := match_pairs hxy h
  rw [matches_pattern whole_bindsAll, hproper]
  simp [matchProper_item, matches_repeated, hps, hpairs]

theorem fits_bindings {x y : String} {b : Value} {ns ws : List Value}
    (hnames : s.LookAll own ns Ts) (hvals : s.LookAll own ws Us) (hb : s.Looks own b B)
    (hvs : s.LookAll own vs Bs) :
    s.FitsEach own [(.user x, .many (ns.map .one)), (.user y, .many (ws.map .one)),
      (.user "body1", .one b), (.user "body2", .many (vs.map .one))]
      [(.user x, .many (Ts.map .one)), (.user y, .many (Us.map .one)), (.user "body1", .one B),
        (.user "body2", .many (Bs.map .one))] :=
  .cons ⟨rfl, .many (fitsAll_ones hnames)⟩ (.cons ⟨rfl, .many (fitsAll_ones hvals)⟩
    (.cons ⟨rfl, .one hb⟩ (.cons ⟨rfl, .many (fitsAll_ones hvs)⟩ .nil)))

theorem drafts_let (hstanding : Standing env last s) (hL : Reads own s L Ps)
    (hP : List.Forall₂ (fun P NV => Reads own s P [NV.1, NV.2]) Ps NVs)
    (hV : List.Forall₂ (Drafts env last own s) (NVs.map Prod.snd) Qs)
    (hB : List.Forall₂ (Drafts env last own s) (B :: Bs) Rs) :
    Drafts env last own s (.list (.atom (.name "let") :: L :: B :: Bs)) fun U => ∃ Cs Vs,
      U = .list (.list (.atom (.name "lambda") :: .list (NVs.map Prod.fst) :: Cs) :: Vs) ∧
        List.Forall₂ (fun Q U => Q U) Rs Cs ∧ List.Forall₂ (fun Q U => Q U) Qs Vs := by
  have hm : letForm ∈ forms := by simp [forms]
  refine .use hstanding hm reads_list (.inl rfl) rfl ?_
  intro t more v vs hst hproper hvs r bs hfound hlast
  cases hvs with
  | @cons l _ vs _ hl hvs =>
    cases hvs with
    | @cons b _ vs _ hb hvs =>
      obtain ⟨ps, hps, hlooks⟩ := hL hst hl
      obtain ⟨nvs, hnvs, hnames, hvals⟩ := read_pairs hP hst hlooks
      -- The first rule takes the use.
      have hmatch : firstMatch? t v letForm.rules = some (letForm.rules[0],
          [(.user "name", .many ((nvs.map Prod.fst).map .one)),
            (.user "val", .many ((nvs.map Prod.snd).map .one)),
            (.user "body1", .one b), (.user "body2", .many (vs.map .one))]) := by
        exact Expansion.firstMatch?_matches (matches_bindings (by simp) hproper hps hnvs)
      cases hmatch.symm.trans hfound
      refine ⟨[(.user "name", .many ((NVs.map Prod.fst).map .one)),
        (.user "val", .many ((NVs.map Prod.snd).map .one)), (.user "body1", .one B),
        (.user "body2", .many (Bs.map .one))],
        .list (.list (.atom (.name "lambda") :: .list (NVs.map Prod.fst) :: B :: Bs) ::
          NVs.map Prod.snd), ?_, ?_, ?_⟩
      · exact fits_bindings hnames hvals hb hvs
      · -- Its template is drawn with what the variables stand for.
        exact draw_template (.list (.core rfl (.list (.variable_last rfl)
          (.variable_one rfl (.variable_last rfl)))) (.variable_last rfl))
      · intro u most hadds _
        -- What was drawn is expanded part by part.
        have hsu := hst.trans hadds
        have hlater : ∀ {Ts Qs}, List.Forall₂ (Drafts env last own s) Ts Qs →
            List.Forall₂ (Drafts env last most u) Ts Qs := fun h => h.imp fun _ _ hT => hT.later hsu
        have hprocedure := Drafts.binding (T := .list (NVs.map Prod.fst)) (.inl rfl)
          (hstanding.core "lambda" rfl) (hlater hB)
        refine (Drafts.list (by rintro x (h | h) <;> cases h)
          (.cons hprocedure (hlater hV))).mono ?_
        rintro U ⟨Us, rfl, hUs⟩
        cases hUs with
        | cons hfirst hVs =>
          obtain ⟨Cs, rfl, hCs⟩ := hfirst
          exact ⟨Cs, _, rfl, hCs, hVs⟩

theorem drafts_definition {N V : Sketch} {Q : Sketch → Prop} (hstanding : Standing env last s)
    (hV : Drafts env last own s V Q) :
    Drafts env last own s (.list [.atom (.name "define"), N, V])
      fun U => ∃ C, U = .list [.atom (.name "define"), N, C] ∧ Q C := by
  refine (Drafts.binding (.inr rfl) (hstanding.core "define" rfl) (.cons hV .nil)).mono ?_
  rintro U ⟨Us, rfl, hUs⟩
  cases hUs with
  | cons hC hnil =>
    cases hnil
    exact ⟨_, rfl, hC⟩

theorem drafts_thunk {N V : Sketch} {Q : Sketch → Prop} (hstanding : Standing env last s)
    (hV : Drafts env last own s V Q) (hB : List.Forall₂ (Drafts env last own s) (B :: Bs) Rs) :
    Drafts env last own s (.list [.list [.atom (.name "lambda"), .atom .null,
      .list [.atom (.name "define"), N, V], .list (.atom (.name "let") :: .atom .null :: B :: Bs)]])
      fun U => ∃ C Cs, U = .list [.list [.atom (.name "lambda"), .atom .null,
        .list [.atom (.name "define"), N, C],
        .list [.list (.atom (.name "lambda") :: .list [] :: Cs)]]] ∧ Q C ∧
          List.Forall₂ (fun Q U => Q U) Rs Cs := by
  -- The definition, the inner `let` and the thunk around both, from the inside out.
  have hdefine := drafts_definition (N := N) hstanding hV
  have hlet := drafts_let hstanding reads_null .nil .nil hB
  have hthunk := Drafts.binding (T := .atom .null) (.inl rfl) (hstanding.core "lambda" rfl)
    (.cons hdefine (.cons hlet .nil))
  refine (Drafts.list (by rintro x (h | h) <;> cases h) (.cons hthunk .nil)).mono ?_
  rintro U ⟨Us, rfl, hUs⟩
  cases hUs with
  | cons hfirst hnil =>
    cases hnil
    obtain ⟨Ws, rfl, hWs⟩ := hfirst
    cases hWs with
    | cons hdefined hWs =>
      cases hWs with
      | cons hbody hnil =>
        cases hnil
        obtain ⟨C, rfl, hC⟩ := hdefined
        obtain ⟨Cs, Vs, rfl, hCs, hVs⟩ := hbody
        cases hVs
        exact ⟨C, Cs, rfl, hC, hCs⟩

theorem drafts_letrec {N V : Sketch} {Q : Sketch → Prop} (hstanding : Standing env last s)
    (hV : Drafts env last own s V Q) (hB : List.Forall₂ (Drafts env last own s) (B :: Bs) Rs) :
    Drafts env last own s (.list (.atom (.name "letrec") :: .list [.list [N, V]] :: B :: Bs))
      fun U => ∃ C Cs, U = .list [.list [.atom (.name "lambda"), .atom .null,
        .list [.atom (.name "define"), N, C],
        .list [.list (.atom (.name "lambda") :: .list [] :: Cs)]]] ∧ Q C ∧
          List.Forall₂ (fun Q U => Q U) Rs Cs := by
  have hm : letrecForm ∈ forms := by simp [forms]
  refine .use hstanding hm reads_list (.inl rfl) rfl ?_
  intro t more v vs hst hproper hvs r bs hfound hlast
  cases hvs with
  | @cons l _ vs _ hl hvs =>
    cases hvs with
    | @cons b _ vs _ hb hvs =>
      obtain ⟨ps, hps, hlooks⟩ := reads_list hst hl
      have hP : List.Forall₂ (fun P NV => Reads own s P [NV.1, NV.2]) [.list [N, V]] [(N, V)] :=
        .cons reads_list .nil
      obtain ⟨nvs, hnvs, hnames, hvals⟩ := read_pairs hP hst hlooks
      have hmatch : firstMatch? t v letrecForm.rules = some (letrecForm.rules[0],
          [(.user "var", .many ((nvs.map Prod.fst).map .one)),
            (.user "init", .many ((nvs.map Prod.snd).map .one)),
            (.user "body1", .one b), (.user "body2", .many (vs.map .one))]) := by
        exact Expansion.firstMatch?_matches (matches_bindings (by simp) hproper hps hnvs)
      cases hmatch.symm.trans hfound
      refine ⟨[(.user "var", .many [.one N]), (.user "init", .many [.one V]),
        (.user "body1", .one B),
        (.user "body2", .many (Bs.map .one))],
        .list [.list [.atom (.name "lambda"), .atom .null, .list [.atom (.name "define"), N, V],
          .list (.atom (.name "let") :: .atom .null :: B :: Bs)]], ?_, ?_, ?_⟩
      · exact fits_bindings hnames hvals hb hvs
      · -- The template brings `let`, which still means the form and so gets no stamp.
        have hlet : introduce ⟨letrecForm, env, t.phase, t.uses⟩ t (.user letForm.name) =
            .user letForm.name := (hstanding.later hst).introduce_form (by simp [forms]) rfl hlast
        have hdrivers : Figures.drivers (template [brings "define", puts "var", puts "init"]).vars
            [(.user "var", .many [.one N]), (.user "init", .many [.one V]), (.user "body1", .one B),
              (.user "body2", .many (Bs.map .one))] =
            [(Symbol.user "var", fun NV : Sketch × Sketch => Figure.one NV.1),
              (.user "init", fun NV => .one NV.2)].map fun g => (g.1, [(N, V)].map g.2) := rfl
        have hdraw : ∀ NV ∈ [(N, V)], (template [brings "define", puts "var", puts "init"]).draw
            (introduce ⟨letrecForm, env, t.phase, t.uses⟩ t)
            ([(.user "var", .one NV.1), (.user "init", .one NV.2)] ++
              [(.user "var", .many [.one N]), (.user "init", .many [.one V]),
                (.user "body1", .one B), (.user "body2", .many (Bs.map .one))]) =
            some (.list [.atom (.name "define"), NV.1, NV.2]) := fun NV _ =>
          draw_template (.core rfl (.variable_one rfl (.variable_one rfl .nil)))
        have hdefine := Figures.repeated_items (by simp) hdrivers hdraw
        exact draw_template (.list (.core rfl (.constant (.many hdefine (.list (.identifier hlet
          (.constant (.variable_one rfl (.variable_last rfl)))) .nil)))) .nil)
      · intro u most hadds _
        have hsu := hst.trans hadds
        exact drafts_thunk (hstanding.later hsu) (hV.later hsu)
          (hB.imp fun _ _ hT => hT.later hsu)

theorem drafts_leaf (hv : ∀ a, v ≠ .pair a) : Drafts env last own s (.part v) (· = .part v) := by
  intro t more v' room w u hst hlooks hexpand _
  obtain rfl := hlooks.eq_of_part
  rw [Expansion.expand_leaf env room hv] at hexpand
  cases hexpand
  exact ⟨more, _, .refl hst.safe, hlooks, rfl⟩

/-- A `let` form with a tag becomes the call of a procedure that knows itself by the tag. -/
theorem drafts_named {H : Sketch} {x tag : Symbol} (hstanding : Standing env last s)
    (hreads : Reads own s T (H :: .part (.symbol tag) :: L :: B :: Bs))
    (hH : H = .atom (.symbol x) ∨ H = .part (.symbol x)) (hx : x.name = "let")
    (hL : Reads own s L Ps) (hP : List.Forall₂ (fun P NV => Reads own s P [NV.1, NV.2]) Ps NVs)
    (hV : List.Forall₂ (Drafts env last own s) (NVs.map Prod.snd) Qs)
    (hB : List.Forall₂ (Drafts env last own s) (B :: Bs) Rs) :
    Drafts env last own s T fun U => ∃ Cs Vs,
      U = .list (.list [.list [.atom (.name "lambda"), .atom .null,
        .list [.atom (.name "define"), .part (.symbol tag),
          .list (.atom (.name "lambda") :: .list (NVs.map Prod.fst) :: Cs)],
        .list [.list [.atom (.name "lambda"), .list [], .part (.symbol tag)]]]] :: Vs) ∧
        List.Forall₂ (fun Q U => Q U) Rs Cs ∧ List.Forall₂ (fun Q U => Q U) Qs Vs := by
  have hm : letForm ∈ forms := by simp [forms]
  refine .use hstanding hm hreads hH hx ?_
  intro t more v vs hst hproper hvs r bs hfound hlast
  cases hvs with
  | @cons n _ vs _ hn hvs =>
    obtain rfl := hn.eq_of_part
    cases hvs with
    | @cons l _ vs _ hl hvs =>
      cases hvs with
      | @cons b _ vs _ hb hvs =>
        obtain ⟨ps, hps, hlooks⟩ := hL hst hl
        obtain ⟨nvs, hnvs, hnames, hvals⟩ := read_pairs hP hst hlooks
        have hmatch : firstMatch? t v letForm.rules = some (letForm.rules[1],
            [(.user "tag", .one (.symbol tag)), (.user "name", .many ((nvs.map Prod.fst).map .one)),
              (.user "val", .many ((nvs.map Prod.snd).map .one)),
              (.user "body1", .one b), (.user "body2", .many (vs.map .one))]) := by
          have hpairs := match_pairs (show "name" ≠ "val" by simp) hnvs
          have hsymbol : t.properList? (.symbol tag) = none := rfl
          -- A tag is no list of bindings, so the first rule is passed over.
          refine (Expansion.firstMatch?_passes ?_).trans (Expansion.firstMatch?_matches ?_)
          · change (matchPattern t (pattern _ (bindsAll "body2")) v).toOption = _
            rw [matches_pattern whole_bindsAll, hproper]
            simp [matchProper_item, matches_repeated, hsymbol]
          · change (matchPattern t (pattern _ (bindsAll "body2")) v).toOption = _
            rw [matches_pattern whole_bindsAll, hproper]
            simp [matchProper_item, matches_repeated, hps, hpairs]
        cases hmatch.symm.trans hfound
        refine ⟨[(.user "tag", .one (.part (.symbol tag))),
          (.user "name", .many ((NVs.map Prod.fst).map .one)),
          (.user "val", .many ((NVs.map Prod.snd).map .one)), (.user "body1", .one B),
          (.user "body2", .many (Bs.map .one))],
          .list (.list [.atom (.name "letrec"), .list [.list [.part (.symbol tag),
            .list (.atom (.name "lambda") :: .list (NVs.map Prod.fst) :: B :: Bs)]],
            .part (.symbol tag)] :: NVs.map Prod.snd), ?_, ?_, ?_⟩
        · exact .cons ⟨rfl, .one hn⟩ (fits_bindings hnames hvals hb hvs)
        · have hletrec : introduce ⟨letForm, env, t.phase, t.uses⟩ t (.user letrecForm.name) =
              .user letrecForm.name :=
            (hstanding.later hst).introduce_form (by simp [forms]) rfl hlast
          exact draw_template (.list (.identifier hletrec (.list (.list (.variable_one rfl
            (.list (.core rfl (.list (.variable_last rfl) (.variable_one rfl (.variable_last rfl))))
              .nil)) .nil) (.variable_one rfl .nil))) (.variable_last rfl))
        · intro u most hadds _
          have hsu := hst.trans hadds
          have hlater := hstanding.later hsu
          -- The `letrec` form that is drawn has been settled by `drafts_letrec`.
          have hprocedure := Drafts.binding (T := .list (NVs.map Prod.fst)) (.inl rfl)
            (hlater.core "lambda" rfl) (hB.imp fun _ _ hT => hT.later hsu)
          have hletrec := drafts_letrec (N := .part (.symbol tag)) hlater hprocedure
            (.cons (drafts_leaf (v := .symbol tag) (by simp)) .nil)
          refine (Drafts.list (by rintro x (h | h) <;> cases h)
            (.cons hletrec (hV.imp fun _ _ hT => hT.later hsu))).mono ?_
          rintro U ⟨Us, rfl, hUs⟩
          cases hUs with
          | cons hfirst hVs =>
            obtain ⟨C, Cs, rfl, ⟨Ds, rfl, hDs⟩, hCs⟩ := hfirst
            cases hCs with
            | cons htag hnil =>
              cases hnil
              obtain rfl := htag
              exact ⟨Ds, _, rfl, hDs, hVs⟩

end Derived

end HygienicScheme
