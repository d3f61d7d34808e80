import HygienicScheme.Proofs.Derived.Evaluating
import HygienicScheme.Proofs.Derived.Let
import HygienicScheme.Proofs.Derived.Whole

/-!
# The pieces of which derived forms are made

Conditionals, sequences, and the call of a procedure that holds a value: how each of them is
expanded, how its stamps are settled, what it binds, and what it does when it is evaluated.
-/
namespace HygienicScheme

open Machine Run

namespace Sketch

abbrev form (keyword : String) (Ts : List Sketch) : Sketch := .list (.atom (.name keyword) :: Ts)

abbrev parts (vs : List Value) : List Sketch := vs.map .part

/-- `((lambda (x) body) test)` -/
abbrev holding (x : Symbol) (body : Sketch) (test : Value) : Sketch :=
  .list [.form "lambda" [.list [.atom (.symbol x)], body], .part test]

variable {T : Sketch} {Ts : List Sketch} {keyword : String} {x y : Symbol} {v test : Value}
  {vs : List Value}

theorem legible_form (hkeyword : keyword = "if" ∨ keyword = "begin") (h : ∀ T ∈ Ts, T.Legible) :
    (form keyword Ts).Legible := by
  refine .list ?_ (List.forall_mem_cons.mpr ⟨.atom nofun, h⟩)
  rintro x (hx | hx)
  · cases hx
    rcases hkeyword with rfl | rfl <;> exact .inr (by simp [Symbol.user])
  · cases hx

theorem legible_parts : ∀ T ∈ parts vs, T.Legible := by
  intro T hT
  obtain ⟨v, -, rfl⟩ := List.mem_map.mp hT
  exact .part

theorem legible_holding (hx : x.isStamped) (h : T.Legible) : (holding x T test).Legible := by
  have hformals : Flat (.list ([x].map fun y => .atom (.symbol y))) :=
    .list (List.forall_mem_singleton.mpr hx)
  have hlambda : (form "lambda" [.list [.atom (.symbol x)], T]).Legible :=
    .binding (.inl rfl) hformals (List.forall_mem_singleton.mpr h)
  refine .list ?_ (List.forall_mem_cons.mpr ⟨hlambda, List.forall_mem_singleton.mpr .part⟩)
  rintro y (hy | hy) <;> cases hy

theorem binds_form (hkeyword : keyword = "if" ∨ keyword = "begin") :
    (form keyword Ts).Binds x ↔ ∃ T ∈ Ts, T.Binds x := by
  have hname : ∀ k, k = "lambda" ∨ k = "define" →
      Sketch.atom (.name keyword) ≠ .atom (.name k) := by
    rcases hkeyword with rfl | rfl <;> rintro k (rfl | rfl) <;> simp [Value.name, Symbol.user]
  rw [form, binds_list_iff hname]
  simp [not_binds_atom]

theorem binds_holding : (holding y T test).Binds x ↔ x = y ∨ T.Binds x := by
  have hformals : ¬ (Sketch.list [.atom (.symbol y)]).Binds x := by
    rintro (_ | _ | ⟨hT, hbinds⟩)
    cases List.mem_singleton.mp hT
    exact not_binds_atom hbinds
  have hpart : ¬ (Sketch.part test).Binds x := nofun
  rw [holding, binds_list_iff (by simp)]
  simp only [List.mem_cons, List.not_mem_nil, or_false, exists_eq_or_imp, exists_eq_left, hpart,
    binds_binding_iff (.inl rfl) hformals]
  simp

end Sketch

namespace Derived

open Store Sketch

variable {env : Environment} {last s t u : Store} {own more : Reserve} {v w test : Value}
  {T U W B : Sketch} {Ts Us : List Sketch} {Qs : List (Sketch → Prop)} {Q : Sketch → Prop}
  {vs : List Value} {bound : List Symbol} {keyword : String} {x : Symbol}

section Drafting

theorem fits_part (hv : s.Guest own v) : s.Fits own (.one v) (.one (.part v)) := .one (.part hv)

theorem fits_parts (h : ∀ v ∈ vs, s.Guest own v) :
    s.Fits own (.many (vs.map .one)) (.many ((parts vs).map .one)) :=
  .many (fitsAll_ones (lookAll_parts.mpr ⟨rfl, h⟩))

theorem drafts_form (hkeyword : keyword = "if" ∨ keyword = "begin")
    (hstanding : Standing env last s)
    (h : List.Forall₂ (Drafts env last own s) Ts Qs) : Drafts env last own s (.form keyword Ts)
      fun U => ∃ Us, U = .form keyword Us ∧ List.Forall₂ (fun Q U => Q U) Qs Us := by
  have hinert : Inert env last (.atom (.name keyword) :: Ts) := by
    rintro x (hx | hx)
    · cases hx
      rcases hkeyword with rfl | rfl
      · exact ⟨hstanding.core "if" rfl, .inr rfl⟩
      · exact ⟨hstanding.core "begin" rfl, .inr rfl⟩
    · cases hx
  refine (Drafts.list hinert (.cons .atom h)).mono ?_
  rintro U ⟨Us, rfl, hUs⟩
  cases hUs with
  | cons hhead hUs => exact ⟨_, by rw [hhead], hUs⟩

theorem drafts_parts : List.Forall₂ (Drafts env last own s) (parts vs)
    (vs.map fun v U => ∃ w, U = .part w ∧ Becomes env s last v w) := by
  rw [List.forall₂_map_left_iff, List.forall₂_map_right_iff, List.forall₂_same]
  exact fun _ _ => .part

theorem parts_of_drafts {R : Value → Value → Prop}
    (h : List.Forall₂ (fun (Q : Sketch → Prop) U => Q U)
      (vs.map fun v U => ∃ w, U = .part w ∧ R v w) Us) :
    ∃ ws, Us = parts ws ∧ List.Forall₂ R vs ws := by
  refine forall_parts ?_
  rw [List.forall₂_map_left_iff] at h ⊢
  refine h.imp ?_
  rintro v U hU v' ⟨⟩
  exact hU

theorem drafts_sequence (hstanding : Standing env last s) :
    Drafts env last own s (.form "begin" (parts vs))
      fun U => ∃ ws, U = .form "begin" (parts ws) ∧ List.Forall₂ (Becomes env s last) vs ws := by
  refine (drafts_form (.inr rfl) hstanding drafts_parts).mono ?_
  rintro U ⟨Us, rfl, hUs⟩
  obtain ⟨ws, rfl, hws⟩ := parts_of_drafts hUs
  exact ⟨ws, rfl, hws⟩

theorem drafts_branch {P : Sketch → Prop} (hstanding : Standing env last s)
    (hT : Drafts env last own s T P) (hU : Drafts env last own s U Q)
    (hTs : List.Forall₂ (Drafts env last own s) Ts Qs) :
    Drafts env last own s (.form "if" (T :: U :: Ts)) fun W => ∃ V V' Vs,
      W = .form "if" (V :: V' :: Vs) ∧ P V ∧ Q V' ∧
        List.Forall₂ (fun (Q : Sketch → Prop) U => Q U) Qs Vs := by
  refine (drafts_form (.inl rfl) hstanding (.cons hT (.cons hU hTs))).mono ?_
  rintro W ⟨Ws, rfl, hWs⟩
  rcases hWs with _ | ⟨hV, _ | ⟨hV', hVs⟩⟩
  exact ⟨_, _, _, rfl, hV, hV', hVs⟩

/-- What stands for an unspecified value stays as it is. -/
theorem drafts_unspecified (hstanding : Standing env last s) :
    Drafts env last own s (.form "if" [.atom (.bool false), .atom (.bool false)])
      (· = .form "if" [.atom (.bool false), .atom (.bool false)]) := by
  refine (drafts_branch hstanding .atom .atom .nil).mono ?_
  rintro W ⟨V, V', Vs, rfl, rfl, rfl, _ | _⟩
  rfl

theorem drafts_holding (hstanding : Standing env last s) (hB : Drafts env last own s B Q) :
    Drafts env last own s (.form "let" [.list [.list [.atom (.symbol x), .part test]], B])
      fun U => ∃ w C, U = .holding x C w ∧ Becomes env s last test w ∧ Q C := by
  have hP : List.Forall₂ (fun P NV => Reads own s P [NV.1, NV.2])
      [.list [.atom (.symbol x), .part test]] [(.atom (.symbol x), .part test)] :=
    .cons reads_list .nil
  refine (drafts_let hstanding reads_list hP (.cons .part .nil) (.cons hB .nil)).mono ?_
  rintro U ⟨Cs, Vs, rfl, hCs, hVs⟩
  cases hCs with
  | cons hC hCs =>
    cases hCs
    cases hVs with
    | cons hV hVs =>
      cases hVs
      obtain ⟨w, rfl, hw⟩ := hV
      exact ⟨w, _, rfl, hw, hC⟩

end Drafting

section Settling

theorem settled_of_part (h : Settled bound s u (.part v) W) :
    ∃ w, W = .part w ∧ Treated (Renaming.code bound) s u v w := by
  cases h with
  | part h => exact ⟨_, rfl, h⟩

theorem settled_of_atom (h : Settled bound s u (.atom v) W) : W = .atom (settledAtom bound v) := by
  cases h with
  | atom => rfl

theorem settled_of_parts (h : List.Forall₂ (Settled bound s u) (parts vs) Us) :
    ∃ ws, Us = parts ws ∧ List.Forall₂ (Treated (Renaming.code bound) s u) vs ws := by
  refine forall_parts (h.imp ?_)
  rintro T U hU v rfl
  exact settled_of_part hU

theorem settled_of_list (hquote : T ≠ .atom (.name "quote"))
    (h : Settled bound s u (.list (T :: Ts)) W) : ∃ U Us, W = .list (U :: Us) ∧
      Settled bound s u T U ∧ List.Forall₂ (Settled bound s u) Ts Us := by
  cases h with
  | list _ h =>
    cases h with
    | cons hT hTs => exact ⟨_, _, rfl, hT, hTs⟩
  | quote => exact absurd rfl hquote

theorem settled_of_form (hkeyword : keyword ≠ "quote")
    (h : Settled bound s u (.form keyword Ts) W) :
    ∃ Us, W = .form keyword Us ∧ List.Forall₂ (Settled bound s u) Ts Us := by
  have hquote : Sketch.atom (.name keyword) ≠ .atom (.name "quote") := by
    rintro ⟨⟩
    exact hkeyword rfl
  obtain ⟨U, Us, rfl, hU, hUs⟩ := settled_of_list hquote h
  obtain rfl := settled_of_atom hU
  exact ⟨Us, rfl, hUs⟩

theorem settled_of_sequence (h : Settled bound s u (.form "begin" (parts vs)) W) :
    ∃ ws, W = .form "begin" (parts ws) ∧
      List.Forall₂ (Treated (Renaming.code bound) s u) vs ws := by
  obtain ⟨Us, rfl, hUs⟩ := settled_of_form (by simp) h
  obtain ⟨ws, rfl, hws⟩ := settled_of_parts hUs
  exact ⟨ws, rfl, hws⟩

theorem settled_of_branch (h : Settled bound s u (.form "if" (T :: U :: Ts)) W) :
    ∃ V V' Vs, W = .form "if" (V :: V' :: Vs) ∧ Settled bound s u T V ∧ Settled bound s u U V' ∧
      List.Forall₂ (Settled bound s u) Ts Vs := by
  obtain ⟨Us, rfl, hUs⟩ := settled_of_form (by simp) h
  rcases hUs with _ | ⟨hV, _ | ⟨hV', hVs⟩⟩
  exact ⟨_, _, _, rfl, hV, hV', hVs⟩

theorem settled_of_unspecified
    (h : Settled bound s u (.form "if" [.atom (.bool false), .atom (.bool false)]) W) :
    W = .form "if" [.atom (.bool false), .atom (.bool false)] := by
  obtain ⟨V, V', Vs, rfl, hV, hV', _ | _⟩ := settled_of_branch h
  rw [settled_of_atom hV, settled_of_atom hV']
  rfl

theorem settledAtom_bound (hx : x ∈ bound) : settledAtom bound (.symbol x) = .symbol x := by
  simp [settledAtom, hx]

theorem settled_of_holding (hstamped : x.isStamped) (hx : x ∈ bound)
    (h : Settled bound s u (.holding x B test) W) :
    ∃ w C, W = .holding x C w ∧ Treated (Renaming.code bound) s u test w ∧
      Settled bound s u B C := by
  have hquote : Sketch.atom (.symbol x) ≠ .atom (.name "quote") := by
    rintro ⟨⟩
    cases hstamped
  obtain ⟨U, Us, rfl, hU, hUs⟩ := settled_of_list
    (T := .form "lambda" [.list [.atom (.symbol x)], B]) nofun h
  obtain ⟨Vs, rfl, hVs⟩ := settled_of_form (by simp) hU
  cases hVs with
  | cons hF hVs =>
    cases hVs with
    | cons hB hVs =>
      cases hVs
      cases hUs with
      | cons htest hUs =>
        cases hUs
        obtain ⟨w, rfl, hw⟩ := settled_of_part htest
        obtain ⟨X, Xs, rfl, hX, hXs⟩ := settled_of_list hquote hF
        cases hXs
        obtain rfl := settled_of_atom hX
        rw [settledAtom_bound hx]
        exact ⟨w, _, rfl, hw, hB⟩

end Settling

end Derived

namespace Machine

open Store Sketch

variable {env : Environment} {s s' t : Store} {own more : Reserve} {v w test : Value}
  {T Y B : Sketch} {Ts Ns : List Sketch} {vs : List Value} {x : Symbol}

theorem runs_branch (h : s.Looks own v (.form "if" (T :: Y :: Ns))) (hNs : Ns.length ≤ 1) :
    ∃ test yes no, s.Looks own test T ∧ s.Looks own yes Y ∧ s.LookAll own no Ns ∧
      ∀ ⦃t more⦄, s.Reserves own t more → ∀ c d env r s', alone c d (.tail v env) t r s' ↔
        ((alone c d (.eval test env)).andThen fun b =>
          if b.isTrue then alone c d (.tail yes env) else inOrder c d env no) t r s' := by
  obtain ⟨vs, hvs, hspecial⟩ := h.special (show _ = some SpecialForm.conditional from rfl)
  cases hvs with
  | cons htest hvs =>
    cases hvs with
    | cons hyes hno =>
      have hlength := hno.length_eq
      exact ⟨_, _, _, htest, hyes, hno, fun t more hst c d env r s' =>
        alone_conditional (by omega) (hspecial hst)⟩

theorem runs_unspecified
    (h : s.Looks own v (.form "if" [.atom (.bool false), .atom (.bool false)])) :
    ∀ ⦃t more⦄, s.Reserves own t more → ∀ c d env r s', alone c d (.tail v env) t r s' ↔
      Run.done .unspecified t r s' := by
  obtain ⟨test, yes, no, htest, -, hno, hbranch⟩ := runs_branch h (by simp)
  cases hno
  obtain rfl := htest.eq_of_atom
  intro t more hst c d env r s'
  have hfalse : ∀ r t', alone c d (.eval (.bool false) env) t r t' ↔
    Run.done (.bool false) t r t' :=
    fun _ _ => alone_constant nofun nofun nofun
  rw [hbranch hst, andThen_congr hfalse fun _ _ _ => Iff.rfl, andThen_done]
  exact Iff.rfl

theorem runs_sequence (h : s.Looks own v (.form "begin" Ts)) : ∃ vs, s.LookAll own vs Ts ∧
    ∀ ⦃t more⦄, s.Reserves own t more → ∀ c d env r s', alone c d (.tail v env) t r s' ↔
      inOrder c d env vs t r s' := by
  obtain ⟨vs, hvs, hspecial⟩ := h.special (show _ = some SpecialForm.sequence from rfl)
  exact ⟨vs, hvs, fun t more hst c d env r s' => alone_sequence (hspecial hst)⟩

theorem runs_holding (hs : s.Safe own) (h : s.Looks own v (.holding x B test)) :
    ∃ body, s.Looks own body B ∧ ∀ ⦃t more⦄, s.Reserves own t more → ∀ c d env r s',
      alone c d (.tail v env) t r s' ↔ invoking c d env ⟨[x], [body]⟩ [test]
        (fun _ env' => alone c d (.tail body env')) t r s' := by
  have hF : Formals (.list [.atom (.symbol x)]) [x] := .list (.cons (.inl rfl) .nil)
  obtain ⟨bs, hbs, hruns⟩ := calls hs (show s.Looks own v (.list (.list (.atom (.name "lambda") ::
    .list [.atom (.symbol x)] :: [B]) :: [test].map .part)) from h) hF (by simp) rfl (by simp)
  cases hbs with
  | cons hbody hbs =>
    cases hbs
    exact ⟨_, hbody, hruns⟩

end Machine

end HygienicScheme
