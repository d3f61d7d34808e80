import HygienicScheme.Proofs.Derived.Expanding
import HygienicScheme.Proofs.Derived.Settling
import HygienicScheme.Proofs.Stamps.Binders

/-!
# What a drawn form binds

The pass that settles stamps first looks for the stamped identifiers that a form binds. Of those
that the expansion introduced it finds the ones that the sketch tells, since code of the user's
binds none of them.
-/
namespace HygienicScheme

namespace Renaming

variable {s : Store} {v : Value} {x : Symbol} {bound : List Symbol} {n : Nat}

section Data

variable {D : Discipline}

theorem formals_data (hs : D.Holds s) (hv : D.Data s v) (hx : x ∈ formals s v) :
    D.Data s (.symbol x) := by
  cases v with
  | symbol y =>
    obtain ⟨hmem, -⟩ := mem_stampedSymbols.mp hx
    rwa [List.mem_singleton.mp hmem]
  | pair a =>
    unfold formals at hx
    dsimp only at hx
    split at hx
    · rename_i items tail hsplit
      obtain ⟨hitems, htail⟩ := D.chain hs hv (Store.splitList?_eq_some.mp hsplit)
      obtain ⟨hmem, -⟩ := mem_stampedSymbols.mp hx
      rcases List.mem_append.mp hmem with hmem | hmem
      · exact hitems _ hmem
      · rwa [List.mem_singleton.mp hmem]
    · cases hx
  | _ => cases hx

theorem binders_data (hs : D.Holds s) (hv : D.Data s v) (h : binders s n v = some bound)
    (hx : x ∈ bound) : D.Data s (.symbol x) := by
  induction n generalizing v bound with
  | zero => cases h
  | succ n ih =>
    have hitems : ∀ {vs : List Value} {found : List (List Symbol)}, (∀ v ∈ vs, D.Data s v) →
        vs.mapM (binders s n) = some found → x ∈ found.flatten → D.Data s (.symbol x) := by
      intro vs found hvs hfound hx
      obtain ⟨w, hw, bs, hbs, hx⟩ := ((mem_of_mapM hfound).2 x).mp hx
      exact ih (hvs w hw) hbs hx
    cases v with
    | pair a =>
      cases hsplit : s.splitList? (.pair a) with
      | none =>
        rw [binders, hsplit] at h
        cases h
        cases hx
      | some parts =>
        obtain ⟨items, tail⟩ := parts
        obtain ⟨hdata, htail⟩ := D.chain hs hv (Store.splitList?_eq_some.mp hsplit)
        rcases binders_pair hsplit h with ⟨-, rfl⟩ | ⟨-, body, hbody, rfl⟩ | ⟨-, found, hfound, rfl⟩
        · cases hx
        · rcases List.mem_append.mp hx with hx | hx
          · cases htarget : (items.drop 1).head? with
            | none =>
              rw [htarget] at hx
              cases hx
            | some target =>
              rw [htarget] at hx
              have hmem := List.mem_of_mem_drop (List.mem_of_head? htarget)
              exact formals_data hs (hdata _ hmem) hx
          · exact hitems (fun w hw => hdata w (List.mem_of_mem_drop hw)) hbody hx
        · refine hitems ?_ hfound hx
          exact List.forall_mem_append.mpr ⟨hdata, List.forall_mem_singleton.mpr htail⟩
    | _ =>
      cases h
      cases hx

end Data

end Renaming

namespace Derived

open Store Sketch Renaming

variable {s t u last : Store} {own more : Reserve} {v w : Value} {T U : Sketch}
  {bound : List Symbol}
  {x : Symbol} {env : Environment} {n : Nat}

theorem mem_formals (hflat : T.Flat) (hlooks : t.Looks own v T)
    (hx : own.Has (.symbol x)) : x ∈ formals t v ↔
      T = .atom (.symbol x) ∨ ∃ Us, T = .list Us ∧ .atom (.symbol x) ∈ Us := by
  have hlist : ∀ Ts, t.Looks own v (.list Ts) →
      (x ∈ formals t v ↔ Sketch.atom (.symbol x) ∈ Ts) := by
    intro Ts hlooks
    cases Ts with
    | nil =>
      cases hlooks with
      | list hall =>
        cases hall
        simp [formals]
    | cons T Ts =>
      obtain ⟨a, vs, rfl, hsplit, hvs⟩ := looks_pair hlooks
      have hitems : .symbol x ∈ vs ↔ Sketch.atom (.symbol x) ∈ T :: Ts := by
        constructor
        · intro hmem
          obtain ⟨U, hU, hlooks⟩ := SyntaxRules.exists_of_mem_right hvs.flip hmem
          cases hlooks with
          | atom => exact hU
          | part hv => exact absurd hx hv.apart
          | list hall => cases hall
        · intro hmem
          obtain ⟨w, hw, hlooks⟩ := SyntaxRules.exists_of_mem_right hvs hmem
          rwa [← hlooks.eq_of_atom]
      rw [formals, hsplit, ← hitems]
      simp [mem_stampedSymbols, hx.1]
  cases hflat with
  | null =>
    obtain rfl := hlooks.eq_of_atom
    simp [formals]
  | @one y =>
    obtain rfl := hlooks.eq_of_atom
    rw [formals, mem_stampedSymbols]
    simp [hx.1, eq_comm]
  | @name n =>
    obtain rfl := hlooks.eq_of_part
    refine iff_of_false (fun hmem => ?_) (by simp)
    rw [Value.name, formals, mem_stampedSymbols, List.mem_singleton] at hmem
    obtain ⟨⟨⟩, hstamped⟩ := hmem
    cases hstamped
  | list => simpa using hlist _ hlooks
  | names => simpa using hlist _ hlooks

/-- What a search finds among the items of a row is what one of their sketches binds, if it is so
for each of them. -/
theorem mem_binders_row {vs : List Value} {Ts : List Sketch} {found : List (List Symbol)}
    (ih : ∀ {v T bound}, T.Legible → t.Looks own v T → binders t n v = some bound →
      (x ∈ bound ↔ T.Binds x))
    (hTs : ∀ U ∈ Ts, U.Legible) (hvs : LookAll t own vs Ts)
    (hfound : vs.mapM (binders t n) = some found) :
    x ∈ found.flatten ↔ ∃ U ∈ Ts, U.Binds x := by
  obtain ⟨hall, hmem⟩ := mem_of_mapM hfound
  rw [hmem]
  constructor
  · rintro ⟨w, hw, bs, hbs, hx⟩
    obtain ⟨U, hU, hlooks⟩ := SyntaxRules.exists_of_mem_right hvs.flip hw
    exact ⟨U, hU, (ih (hTs U hU) hlooks hbs).mp hx⟩
  · rintro ⟨U, hU, hbinds⟩
    obtain ⟨w, hw, hlooks⟩ := SyntaxRules.exists_of_mem_right hvs hU
    obtain ⟨bs, hbs⟩ := hall w hw
    exact ⟨w, hw, bs, hbs, (ih (hTs U hU) hlooks hbs).mpr hbinds⟩

theorem mem_binders (hs : t.Secludes own) (hT : T.Legible) (hlooks : t.Looks own v T)
    (hx : own.Has (.symbol x)) (h : binders t n v = some bound) : x ∈ bound ↔ T.Binds x := by
  induction n generalizing v T bound with
  | zero => cases h
  | succ n ih =>
    cases hT with
    | atom =>
      cases hlooks with
      | atom hp =>
        -- A symbol or a constant binds nothing.
        refine iff_of_false (fun hmem => ?_) nofun
        cases v with
        | pair a => exact hp a rfl
        | _ =>
          cases h
          cases hmem
    | part =>
      refine iff_of_false (fun hmem => ?_) nofun
      -- Code of the user's is apart from the reserve, so no reserved identifier is in it.
      obtain rfl := hlooks.eq_of_part
      exact binders_data (D := (secluding own).toDiscipline) hs hlooks.guest.apart h hmem hx
    | nil =>
      cases hlooks with
      | list hall =>
        cases hall
        cases h
        refine iff_of_false nofun fun hbinds => ?_
        cases hbinds with
        | item hT => cases hT
    | @list T Ts hplain hall =>
      obtain ⟨a, vs, rfl, hsplit, hvs⟩ := looks_pair hlooks
      have hhead : Head.ofItems vs = .other := by
        cases hvs with
        | cons hv _ => exact head_of_plain hplain hv
      rcases binders_pair hsplit h with ⟨hmem, -⟩ | ⟨hmem, -⟩ | ⟨-, found, hfound, rfl⟩
      · simp [hhead] at hmem
      · simp [hhead] at hmem
      · -- The end of the list is searched as one item more.
        have hlegible : ∀ U ∈ (T :: Ts) ++ [.atom .null], U.Legible :=
          List.forall_mem_append.mpr ⟨hall, List.forall_mem_singleton.mpr (.atom nofun)⟩
        have hlook : LookAll t own (vs ++ [.null]) ((T :: Ts) ++ [.atom .null]) :=
          List.rel_append hvs (.cons (.atom nofun trivial nofun) .nil)
        rw [mem_binders_row ih hlegible hlook hfound, hplain.binds_iff]
        simp only [List.mem_append, List.mem_singleton, or_and_right, exists_or, exists_eq_left,
          not_binds_atom, or_false]
    | @binding keyword hkeyword T Ts hflat hall =>
      obtain ⟨a, vs, rfl, hsplit, hvs⟩ := looks_pair hlooks
      cases hvs with
      | cons hhead hvs =>
        obtain rfl := hhead.eq_of_atom
        cases hvs with
        | @cons target _ body _ htarget hbody =>
          -- The target is read for formals, the body is searched item by item.
          have hof : Head.ofItems (.name keyword :: target :: body) = .lambda ∨
              Head.ofItems (.name keyword :: target :: body) = .define := by
            rcases hkeyword with rfl | rfl
            · exact .inl rfl
            · exact .inr rfl
          rcases binders_pair hsplit h with ⟨hmem, -⟩ | ⟨-, found, hfound, rfl⟩ | ⟨hmem, -⟩
          · rcases hof with hof | hof <;> simp [hof] at hmem
          · rw [List.mem_append, mem_binders_row ih hall hbody hfound,
              binds_binding_iff hkeyword (hflat.not_binds x)]
            exact or_congr_left (mem_formals hflat htarget hx)
          · rcases hof with hof | hof <;> simp [hof] at hmem
    | @quote vs =>
      obtain ⟨a, items, rfl, hsplit, hitems⟩ := looks_pair hlooks
      have hof : Head.ofItems items = .quote := by
        cases hitems with
        | cons hhead _ =>
          obtain rfl := hhead.eq_of_atom
          rfl
      rcases binders_pair hsplit h with ⟨-, rfl⟩ | ⟨hmem, -⟩ | ⟨hmem, -⟩
      · exact iff_of_false nofun not_binds_quote
      · simp [hof] at hmem
      · simp [hof] at hmem

/-- What is settled in the end reads as a sketch like that of what was expanded. The identifiers of
the reserve that the form binds keep their stamps and the others lose them. -/
theorem renameIntroduced_settles (hT : T.Legible) (hsafe : s.Safe own) (hlooks : s.Looks own v T)
    (h : renameIntroduced v s = .ok w u) :
    ∃ bound more U, s.Adds own u more ∧ u.Looks more w U ∧ Settled bound s u T U ∧
      ∀ x, own.Has (.symbol x) → (x ∈ bound ↔ T.Binds x) := by
  unfold renameIntroduced at h
  rw [Action.get_bind] at h
  obtain ⟨stamped, t, hstamped, hrest⟩ := Action.ok_of_bind h
  obtain ⟨hsearch, ht⟩ := Action.ended_ok hstamped
  subst t
  cases stamped with
  | false =>
    cases hrest
    have hclean : s.stampedWithin s.walkBound v = some false := hsearch
    refine ⟨[], own, T, .refl hsafe, hlooks, settled_of_clean hT hlooks hclean (.refl s)
      (.refl s), ?_⟩
    exact fun x hx => iff_of_false nofun (not_binds_of_clean hlooks hclean hx.1)
  | true =>
    rw [if_pos rfl] at hrest
    obtain ⟨bound, t, hbound, hcode⟩ := Action.ok_of_bind hrest
    obtain ⟨hfound, ht⟩ := Action.ended_ok hbound
    subst t
    obtain ⟨more, U, hadds, hU, hsettled⟩ := settles hT (.refl hsafe) hlooks hcode (.refl u)
    exact ⟨bound, more, U, hadds, hU, hsettled,
      fun x hx => mem_binders hsafe.secludes hT hlooks hx hfound⟩

end Derived

end HygienicScheme
