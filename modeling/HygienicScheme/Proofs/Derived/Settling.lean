import HygienicScheme.Proofs.Derived.Drawing
import HygienicScheme.Proofs.Stamps.Forms

/-!
# Settling what was drawn

Once a form is expanded its stamps are settled. The lists that the expansion made are made anew, an
identifier that is bound in one of them keeps its stamp, and to code of the user's the pass does
what it does to such code anywhere.
-/
namespace HygienicScheme

open Renaming (code strip rebuild)

namespace Derived

def settledAtom (bound : List Symbol) : Value → Value
  | .symbol x => .symbol (if x.isStamped && !bound.contains x then x.unstamped else x)
  | v => v

def Treated (pass : Nat → Value → Action Value) (s u : Store) (v w : Value) : Prop :=
  (∃ n t, s.Expands t ∧ t.Expands u ∧ t.stampedWithin n v = some false ∧ w = v) ∨
    ∃ depth t t', s.Expands t ∧ pass depth v t = .ok w t' ∧ t'.Expands u

end Derived

namespace Sketch

def Is (T : Sketch) (x : Symbol) : Prop := T = .atom (.symbol x) ∨ T = .part (.symbol x)

def Plain (T : Sketch) : Prop := ∀ x, T.Is x →
  x.isStamped ∨ x.name ∉ ["quote", "quasiquote", "lambda", "define", "define-syntax"]

inductive Flat : Sketch → Prop
  | null : Flat (.atom .null)
  | one {x : Symbol} : Flat (.atom (.symbol x))
  | name {n : String} : Flat (.part (.name n))
  | list {xs : List Symbol} (h : ∀ x ∈ xs, x.isStamped) :
      Flat (.list (xs.map fun x => .atom (.symbol x)))
  | names {ns : List String} : Flat (.list ((ns.map Value.name).map .part))

inductive Legible : Sketch → Prop
  | atom {v : Value} (hv : ∀ a, v ≠ .vector a) : Legible (.atom v)
  | part {v : Value} : Legible (.part v)
  | nil : Legible (.list [])
  | list {T : Sketch} {Ts : List Sketch} (hplain : T.Plain) (h : ∀ U ∈ T :: Ts, Legible U) :
      Legible (.list (T :: Ts))
  | binding {keyword : String} (hkeyword : keyword = "lambda" ∨ keyword = "define") {T : Sketch}
      {Ts : List Sketch} (hflat : T.Flat) (h : ∀ U ∈ Ts, Legible U) :
      Legible (.list (.atom (.name keyword) :: T :: Ts))
  | quote {vs : List Value} : Legible (.list [.atom (.name "quote"), .list (vs.map .part)])

inductive Binds (x : Symbol) : Sketch → Prop
  | one {keyword : String} (hkeyword : keyword = "lambda" ∨ keyword = "define")
      {Ts : List Sketch} : Binds x (.list (.atom (.name keyword) :: .atom (.symbol x) :: Ts))
  | list {keyword : String} (hkeyword : keyword = "lambda" ∨ keyword = "define")
      {Us Ts : List Sketch} (h : .atom (.symbol x) ∈ Us) :
      Binds x (.list (.atom (.name keyword) :: .list Us :: Ts))
  | item {T : Sketch} {Ts : List Sketch} (hT : T ∈ Ts) (h : Binds x T) : Binds x (.list Ts)

theorem Plain.ne_name {T : Sketch} (h : T.Plain) {keyword : String}
    (hkeyword : keyword ∈ ["quote", "quasiquote", "lambda", "define", "define-syntax"]) :
    T ≠ .atom (.name keyword) := by
  rintro rfl
  rcases h _ (.inl rfl) with hstamped | hname
  · cases hstamped
  · exact hname hkeyword

theorem plain_stamped {x : Symbol} (h : x.isStamped) : Plain (.atom (.symbol x)) := by
  rintro y (hy | hy) <;> cases hy
  exact .inl h

theorem Flat.legible_or_names {T : Sketch} (h : T.Flat) :
    T.Legible ∨ ∃ ns : List String, T = .list ((ns.map Value.name).map .part) := by
  cases h with
  | null | one => exact .inl (.atom nofun)
  | name => exact .inl .part
  | @list xs h =>
    cases xs with
    | nil => exact .inl .nil
    | cons x xs =>
      refine .inl (.list (plain_stamped (h x (.head _))) fun U hU => ?_)
      obtain ⟨y, -, rfl⟩ :=
        List.mem_map.mp (show U ∈ (x :: xs).map fun x => .atom (.symbol x) from hU)
      exact .atom nofun
  | @names ns => exact .inr ⟨ns, rfl⟩

section Binds

variable {T : Sketch} {Ts : List Sketch} {keyword : String} {x : Symbol} {v : Value}
  {vs : List Value}

theorem not_binds_atom : ¬ (Sketch.atom v).Binds x := nofun

/-- A list that begins with neither keyword binds only through its items. -/
theorem binds_list_iff
    (hT : ∀ keyword, keyword = "lambda" ∨ keyword = "define" → T ≠ .atom (.name keyword)) :
    Binds x (.list (T :: Ts)) ↔ ∃ U ∈ T :: Ts, U.Binds x := by
  constructor
  · intro hbinds
    cases hbinds with
    | one hkeyword | list hkeyword => exact absurd rfl (hT _ hkeyword)
    | item hU hbinds => exact ⟨_, hU, hbinds⟩
  · rintro ⟨U, hU, hbinds⟩
    exact .item hU hbinds

theorem Plain.binds_iff (h : T.Plain) : Binds x (.list (T :: Ts)) ↔ ∃ U ∈ T :: Ts, U.Binds x := by
  refine binds_list_iff ?_
  rintro keyword (rfl | rfl) <;> exact h.ne_name (by simp)

/-- An abstraction or a definition binds what its formals say, and what its body binds. -/
theorem binds_binding_iff (hkeyword : keyword = "lambda" ∨ keyword = "define")
    (hT : ¬ T.Binds x) :
    Binds x (.list (.atom (.name keyword) :: T :: Ts)) ↔
      (T = .atom (.symbol x) ∨ ∃ Us, T = .list Us ∧ .atom (.symbol x) ∈ Us) ∨
        ∃ U ∈ Ts, U.Binds x := by
  constructor
  · intro hbinds
    cases hbinds with
    | one => exact .inl (.inl rfl)
    | list _ hmem => exact .inl (.inr ⟨_, rfl, hmem⟩)
    | @item U _ hU hbinds =>
      rcases List.mem_cons.mp hU with rfl | hU
      · cases hbinds
      · rcases List.mem_cons.mp hU with rfl | hU
        · exact absurd hbinds hT
        · exact .inr ⟨U, hU, hbinds⟩
  · rintro ((rfl | ⟨Us, rfl, hmem⟩) | ⟨U, hU, hbinds⟩)
    · exact .one hkeyword
    · exact .list hkeyword hmem
    · exact .item (.tail _ (.tail _ hU)) hbinds

theorem not_binds_parts (x : Symbol) : ¬ Binds x (.list (vs.map .part)) := by
  have hpart : ∀ T ∈ vs.map Sketch.part, ∃ v, T = .part v := by simp
  generalize vs.map Sketch.part = Ts at hpart ⊢
  intro hbinds
  cases hbinds with
  | one => simp at hpart
  | list => simp at hpart
  | item hT hbinds =>
    obtain ⟨v, rfl⟩ := hpart _ hT
    cases hbinds

theorem not_binds_quote :
    ¬ Binds x (.list [.atom (.name "quote"), .list (vs.map .part)]) := by
  rw [binds_list_iff (by rintro keyword (rfl | rfl) <;> simp [Value.name, Symbol.user])]
  simp [not_binds_atom, not_binds_parts]

theorem Flat.not_binds (h : T.Flat) (x : Symbol) : ¬ T.Binds x := by
  cases h with
  | null | one | name => exact nofun
  | @list xs h =>
    cases xs with
    | nil =>
      intro hbinds
      cases hbinds with
      | item hT => cases hT
    | cons y ys =>
      rw [List.map_cons, (plain_stamped (h y (.head _))).binds_iff]
      simp [not_binds_atom]
  | names => exact not_binds_parts x

end Binds

end Sketch

namespace Derived

open Store Sketch

variable {s t t' u : Store} {own more : Reserve} {v w : Value} {vs ws : List Value} {T U : Sketch}
  {Ts Us : List Sketch} {bound : List Symbol} {m : Nat} {x : Symbol}

inductive Settled (bound : List Symbol) (s u : Store) : Sketch → Sketch → Prop
  | atom {v : Value} : Settled bound s u (.atom v) (.atom (settledAtom bound v))
  | part {v w : Value} (h : Treated (code bound) s u v w) : Settled bound s u (.part v) (.part w)
  | list {Ts Us : List Sketch} (hquote : ∀ Vs, Ts ≠ .atom (.name "quote") :: Vs)
      (h : List.Forall₂ (Settled bound s u) Ts Us) : Settled bound s u (.list Ts) (.list Us)
  | quote {vs ws : List Value} (h : List.Forall₂ (Treated strip s u) vs ws) :
      Settled bound s u (.list [.atom (.name "quote"), .list (vs.map .part)])
        (.list [.atom (.name "quote"), .list (ws.map .part)])

theorem settledAtom_ne_pair (hv : ∀ a, v ≠ .pair a) (a : Address) :
    settledAtom bound v ≠ .pair a := by
  cases v with
  | pair b => exact absurd rfl (hv b)
  | _ => exact nofun

theorem known_settledAtom (hv : s.Known v) : s.Known (settledAtom bound v) := by
  cases v with
  | symbol x =>
    unfold settledAtom
    dsimp only
    split
    · exact known_unstamped rfl
    · exact hv
  | _ => exact hv

theorem marks_settledAtom (hv : own.Marks v) : own.Marks (settledAtom bound v) := by
  cases v with
  | symbol x =>
    unfold settledAtom
    dsimp only
    split
    · exact Reserve.marks_unstamped rfl
    · exact hv
  | _ => exact hv

theorem code_atom (hp : ∀ a, v ≠ .pair a) (hv : ∀ a, v ≠ .vector a) :
    code bound (m + 1) v s = .ok (settledAtom bound v) s := by
  unfold code
  cases v with
  | pair a => exact absurd rfl (hp a)
  | vector a => exact absurd rfl (hv a)
  | _ => rfl

theorem is_of_looks (h : s.Looks own (.symbol x) T) : T.Is x := by
  cases h with
  | atom => exact .inl rfl
  | part => exact .inr rfl
  | list h => cases h

theorem head_of_plain (hplain : T.Plain) (h : s.Looks own v T) :
    Renaming.Head.ofItems (v :: vs) = .other := by
  cases v with
  | symbol x =>
    have hx := hplain x (is_of_looks h)
    unfold Renaming.Head.ofItems
    dsimp only
    split
    · rfl
    · have hname := hx.resolve_left ‹_›
      simp only [List.mem_cons, List.not_mem_nil, or_false, not_or] at hname
      simp [hname]
  | _ => rfl

def Settles (pass : Value → Action Value) (s u : Store) (T : Sketch) (Q : Sketch → Prop) : Prop :=
  ∀ ⦃own t more v w t'⦄, s.Adds own t more → t.Looks more v T → pass v t = .ok w t' →
    t'.Expands u → ∃ most U, t.Adds more t' most ∧ t'.Looks most w U ∧ Q U

theorem settles_rebuild {pass : Value → Action Value} {Q : Sketch → Sketch → Prop}
    (hpass : ∀ v, (pass v).Expanding) (hnull : ∀ t w t', pass .null t = .ok w t' →
      w = .null ∧ t' = t)
    (h : ∀ T ∈ Ts, Settles pass s u T (Q T)) (hst : s.Adds own t more)
    (hlooks : LookAll t more vs Ts) (hw : rebuild pass vs .null t = .ok w t') (hu : t'.Expands u) :
    ∃ most Us, t.Adds more t' most ∧ t'.Looks most w (.list Us) ∧ List.Forall₂ Q Ts Us := by
  obtain ⟨ws, t₁, hws, hrest⟩ := Action.ok_of_bind hw
  obtain ⟨tail, t₂, htail, hlist⟩ := Action.ok_of_bind hrest
  obtain ⟨rfl, rfl⟩ := hnull _ _ _ htail
  have hback : ∀ vs ws t t', List.mapM pass vs t = .ok ws t' → t'.Expands u → t.Expands u :=
    fun vs ws t t' hvs ht' => ((Action.Expanding.mapM hpass vs).of_ok hvs).trans ht'
  have hitems : List.Forall₂ (fun T Q => ∀ ⦃t more v w t'⦄, s.Adds own t more → t.Looks more v T →
      pass v t = .ok w t' → t'.Expands u → ∃ most U, t.Adds more t' most ∧ t'.Looks most w U ∧ Q U)
      Ts (Ts.map Q) := by
    rw [List.forall₂_map_right_iff, List.forall₂_same]
    intro T hT t more v w t' hst hv hw ht'
    exact h T hT hst hv hw ht'
  have hbuilt := (Action.Expanding.lift (Build.expanding_list ws)).of_ok hlist
  obtain ⟨most, Us, hadds, hUs, hQs⟩ := Store.Adds.items hback hitems hst hlooks hws
    (hbuilt.trans hu)
  obtain ⟨most', hadds', hlooks'⟩ := hadds.safe.list hUs hlist
  rw [List.forall₂_map_left_iff] at hQs
  exact ⟨most', Us, hadds.trans hadds', hlooks', hQs⟩

theorem settles_part {pass : Nat → Value → Action Value}
    (hkeeps : ∀ (D : SyntaxDiscipline) {s v}, D.Holds s → D.Data s v →
      D.toDiscipline.Keeps (pass m v) s D.Data) :
    Settles (pass m) s u (.part v) fun U => ∃ w, U = .part w ∧ Treated pass s u v w := by
  intro own t more v' w t' hst hlooks hw hu
  obtain rfl := hlooks.eq_of_part
  have hv := hlooks.guest
  have hsecluded := (hkeeps (secluding more).toSyntaxDiscipline hst.secludes hv.apart).of_ok hw
  have hknown := (hkeeps knowing.toSyntaxDiscipline hst.known hv.known).of_ok hw
  have hexpands := (Action.Expanding.of_keeps fun _ =>
    hkeeps Store.Expands.discipline.toSyntaxDiscipline trivial trivial).of_ok hw
  exact ⟨more, _, ⟨.of_kept hsecluded.1 hknown.1, hexpands⟩, .part ⟨hknown.2, hsecluded.2⟩, w, rfl,
    .inr ⟨m, t, t', hst.expands, hw, hu⟩⟩

def Bare (v : Value) : Prop := v = .null ∨ ∃ n, v = .name n

theorem strip_bare (hv : Bare v) (h : strip m v t = .ok w t') : w = v ∧ t' = t := by
  cases m with
  | zero =>
    unfold strip at h
    cases h
  | succ m =>
    unfold strip at h
    rw [Action.get_bind] at h
    obtain ⟨stamped, t₁, hstamped, h⟩ := Action.ok_of_bind h
    obtain ⟨-, rfl⟩ := Action.ended_ok hstamped
    rcases hv with rfl | ⟨n, rfl⟩ <;> split at h <;> cases h <;> exact ⟨rfl, rfl⟩

theorem code_bare (hv : Bare v) (h : code bound m v t = .ok w t') : w = v ∧ t' = t := by
  cases m with
  | zero =>
    unfold code at h
    cases h
  | succ m =>
    have hatom : code bound (m + 1) v t = .ok v t := by rcases hv with rfl | ⟨n, rfl⟩ <;> rfl
    cases hatom.symm.trans h
    exact ⟨rfl, rfl⟩

theorem template_bare {level : Nat} (hv : Bare v)
    (h : Renaming.template bound m level v t = .ok w t') : w = v ∧ t' = t := by
  cases m with
  | zero =>
    unfold Renaming.template at h
    cases h
  | succ m =>
    unfold Renaming.template at h
    rw [Action.get_bind] at h
    rcases hv with rfl | ⟨n, rfl⟩
    · exact strip_bare (.inl rfl) h
    · exact strip_bare (.inr ⟨n, rfl⟩) h

theorem looks_pair (h : s.Looks own v (.list (T :: Ts))) : ∃ a vs, v = .pair a ∧
    s.splitList? v = some (vs, .null) ∧ LookAll s own vs (T :: Ts) := by
  obtain ⟨vs, hchain, hvs⟩ := h.chain
  cases hchain with
  | tail => cases hvs
  | pair hchain => exact ⟨_, _, rfl, Store.splitList?_eq_some.mpr (.pair hchain), hvs⟩

theorem clean_items {n : Nat} {a : Address} {vs : List Value}
    (hsplit : s.splitList? (.pair a) = some (vs, .null))
    (h : s.stampedWithin n (.pair a) = some false) :
    ∃ m, n = m + 1 ∧ ∀ v ∈ vs, s.stampedWithin m v = some false := by
  cases n with
  | zero => cases h
  | succ n =>
    rw [stampedWithin, hsplit] at h
    exact ⟨n, rfl, fun v hv => anyOf_eq_false.mp h v (List.mem_append_left _ hv)⟩

theorem clean_item {n : Nat} (hlooks : s.Looks own v (.list Ts))
    (h : s.stampedWithin (n + 1) v = some false) (hT : T ∈ Ts) :
    ∃ w, s.Looks own w T ∧ s.stampedWithin n w = some false := by
  cases Ts with
  | nil => cases hT
  | cons first rest =>
    obtain ⟨a, vs, rfl, hsplit, hvs⟩ := looks_pair hlooks
    obtain ⟨m, hm, hclean⟩ := clean_items hsplit h
    cases hm
    obtain ⟨w, hw, hlooks⟩ := SyntaxRules.exists_of_mem_right hvs hT
    exact ⟨w, hlooks, hclean w hw⟩

theorem not_binds_of_clean {n : Nat} (hlooks : s.Looks own v T)
    (h : s.stampedWithin n v = some false) (hx : x.isStamped) : ¬ T.Binds x := by
  intro hbinds
  have hatom : ∀ {n w}, s.Looks own w (.atom (.symbol x)) → s.stampedWithin n w ≠ some false := by
    intro n w hw hclean
    obtain rfl := hw.eq_of_atom
    cases n with
    | zero => cases hclean
    | succ n =>
      have hfalse : x.isStamped = false := Option.some.inj hclean
      exact Bool.noConfusion (hx.symm.trans hfalse)
  induction hbinds generalizing v n with
  | one =>
    cases n with
    | zero => cases h
    | succ n =>
      obtain ⟨w, hw, hclean⟩ := clean_item hlooks h (.tail _ (.head _))
      exact hatom hw hclean
  | list _ hmem =>
    cases n with
    | zero => cases h
    | succ n =>
      obtain ⟨w, hw, hclean⟩ := clean_item hlooks h (.tail _ (.head _))
      cases n with
      | zero => cases hclean
      | succ n =>
        obtain ⟨w', hw', hclean'⟩ := clean_item hw hclean hmem
        exact hatom hw' hclean'
  | item hT _ ih =>
    cases n with
    | zero => cases h
    | succ n =>
      obtain ⟨w, hw, hclean⟩ := clean_item hlooks h hT
      exact ih hw hclean

theorem lookAll_parts : LookAll s own vs (ws.map .part) ↔ vs = ws ∧ ∀ w ∈ ws, s.Guest own w := by
  constructor
  · intro h
    induction ws generalizing vs with
    | nil =>
      cases h
      exact ⟨rfl, nofun⟩
    | cons w ws ih =>
      cases h with
      | cons hv h =>
        obtain ⟨rfl, hguests⟩ := ih h
        obtain rfl := hv.eq_of_part
        exact ⟨rfl, List.forall_mem_cons.mpr ⟨hv.guest, hguests⟩⟩
  · rintro ⟨rfl, h⟩
    rw [LookAll, List.forall₂_map_right_iff, List.forall₂_same]
    exact fun w hw => .part (h w hw)

theorem forall_parts {Q : Value → Value → Prop}
    (h : List.Forall₂ (fun T U => ∀ v, T = .part v → ∃ w, U = .part w ∧ Q v w)
      (vs.map Sketch.part) Us) :
    ∃ ws, Us = ws.map Sketch.part ∧ List.Forall₂ Q vs ws := by
  induction vs generalizing Us with
  | nil =>
    cases h
    exact ⟨[], rfl, .nil⟩
  | cons v vs ih =>
    cases h with
    | cons hv h =>
      obtain ⟨w, rfl, hw⟩ := hv v rfl
      obtain ⟨ws, rfl, hws⟩ := ih h
      exact ⟨w :: ws, rfl, .cons hw hws⟩

theorem settles_quoted : Settles (strip m) s u (.list (vs.map .part))
    fun U => ∃ ws, U = .list (ws.map .part) ∧ List.Forall₂ (Treated strip s u) vs ws := by
  intro own t more v w t' hst hlooks hw hu
  cases vs with
  | nil =>
    cases hlooks with
    | list hall =>
      cases hall
      obtain ⟨rfl, rfl⟩ := strip_bare (.inl rfl) hw
      exact ⟨more, _, .refl hst.safe, .list .nil, [], rfl, .nil⟩
  | cons first rest =>
    obtain ⟨a, vs, rfl, hsplit, hvs⟩ := looks_pair hlooks
    cases m with
    | zero =>
      unfold strip at hw
      cases hw
    | succ m =>
      unfold strip at hw
      rw [Action.get_bind] at hw
      obtain ⟨stamped, t₁, hstamped, hrest⟩ := Action.ok_of_bind hw
      obtain ⟨hsearch, ht⟩ := Action.ended_ok hstamped
      subst t₁
      -- Data without stamps are handed back as they are, all other data are rebuilt.
      cases stamped with
      | false =>
        cases hrest
        obtain ⟨n, -, hclean⟩ := clean_items hsplit hsearch
        obtain ⟨rfl, -⟩ : vs = first :: rest ∧ _ := lookAll_parts.mp hvs
        refine ⟨more, _, .refl hst.safe, hlooks, first :: rest, rfl, List.forall₂_same.mpr ?_⟩
        exact fun v hv => .inl ⟨n, t, hst.expands, hu, hclean v hv, rfl⟩
      | true =>
        have hrebuild : rebuild (strip m) vs .null t = .ok w t' := by
          rw [if_pos rfl] at hrest
          dsimp only at hrest
          rw [hsplit] at hrest
          exact hrest
        have hparts : ∀ T ∈ (first :: rest).map Sketch.part, Settles (strip m) s u T
            fun U => ∀ v, T = .part v → ∃ w, U = .part w ∧ Treated strip s u v w := by
          intro T hT own t more v w t' hst hlooks hw hu
          obtain ⟨x, -, rfl⟩ := List.mem_map.mp hT
          obtain ⟨most, U, hadds, hU, hpart⟩ := settles_part
            (fun D _ _ hs hv => SyntaxDiscipline.keeps_strip m hs hv) hst hlooks hw hu
          refine ⟨most, U, hadds, hU, ?_⟩
          rintro y ⟨⟩
          exact hpart
        obtain ⟨most, Us, hadds, hlooks', hUs⟩ := settles_rebuild (Renaming.expanding_strip m)
          (fun _ _ _ => strip_bare (.inl rfl)) hparts hst hvs hrebuild hu
        obtain ⟨ws, rfl, hws⟩ := forall_parts hUs
        exact ⟨most, _, hadds, hlooks', ws, rfl, hws⟩

theorem settles_list (h : ∀ U ∈ T :: Ts, Settles (code bound m) s u U (Settled bound s u U))
    (hquote : ∀ Vs, T :: Ts ≠ .atom (.name "quote") :: Vs)
    (hform : ∀ {t own vs}, LookAll t own vs (T :: Ts) →
      Renaming.Form.of vs .null = .other) :
    Settles (code bound (m + 1)) s u (.list (T :: Ts)) (Settled bound s u (.list (T :: Ts))) := by
  intro own t more v w t' hst hlooks hw hu
  obtain ⟨a, vs, rfl, hsplit, hvs⟩ := looks_pair hlooks
  rw [Renaming.code_pair hsplit, hform hvs] at hw
  obtain ⟨most, Us, hadds, hlooks', hUs⟩ := settles_rebuild (Renaming.expanding_code bound m)
    (fun _ _ _ => code_bare (.inl rfl)) h hst hvs hw hu
  exact ⟨most, _, hadds, hlooks', .list hquote hUs⟩

theorem guest_name (n : String) : s.Guest own (.name n) :=
  ⟨known_unstamped rfl, Reserve.not_has_unstamped rfl⟩

theorem lookAll_names {ns : List String} :
    LookAll s own (ns.map .name) ((ns.map Value.name).map .part) := by
  refine lookAll_parts.mpr ⟨rfl, fun v hv => ?_⟩
  obtain ⟨n, -, rfl⟩ := List.mem_map.mp hv
  exact guest_name n

theorem rebuild_bare {pass : Value → Action Value}
    (hpass : ∀ {v w t t'}, Bare v → pass v t = .ok w t' → w = v ∧ t' = t)
    (hvs : ∀ v ∈ vs, Bare v) (h : rebuild pass vs .null t = .ok w t') :
    (liftM (Build.list vs) : Action Value) t = .ok w t' := by
  obtain ⟨ws, t₁, hws, hrest⟩ := Action.ok_of_bind h
  obtain ⟨tail, t₂, htail, hlist⟩ := Action.ok_of_bind hrest
  obtain ⟨rfl, rfl⟩ := hpass (.inl rfl) htail
  suffices hsame : ws = vs ∧ t₂ = t by
    obtain ⟨rfl, rfl⟩ := hsame
    exact hlist
  clear h hrest htail hlist
  induction vs generalizing ws t with
  | nil =>
    cases hws
    exact ⟨rfl, rfl⟩
  | cons v vs ih =>
    obtain ⟨hv, hmore⟩ := List.forall_mem_cons.mp hvs
    rw [List.mapM_cons] at hws
    obtain ⟨w', t₁, hw', hrest⟩ := Action.ok_of_bind hws
    obtain ⟨ws', t₃, hws', hcons⟩ := Action.ok_of_bind hrest
    cases hcons
    obtain ⟨rfl, rfl⟩ := hpass hv hw'
    obtain ⟨rfl, rfl⟩ := ih hmore _ hws'
    exact ⟨rfl, rfl⟩

theorem bare_names {ns : List String} : ∀ v ∈ ns.map Value.name, Bare v := by
  intro v hv
  obtain ⟨n, -, rfl⟩ := List.mem_map.mp hv
  exact .inr ⟨n, rfl⟩

/-- Which name a list begins with if the pass takes it for quoted data or a template. -/
theorem form_of_name {n : String} :
    (∀ {data}, Renaming.Form.of (.name n :: vs) .null = .quote data → n = "quote" ∧ data = vs) ∧
      ∀ {w}, Renaming.Form.of (.name n :: vs) .null = .quasiquote w →
        n = "quasiquote" ∧ vs = [w] := by
  have hhead : ∀ {head}, Renaming.Head.ofItems (.name n :: vs) = head →
      (head = .quote → n = "quote") ∧ (head = .quasiquote → n = "quasiquote") := by
    rintro _ rfl
    unfold Renaming.Head.ofItems
    simp only [Value.name, Symbol.user, beq_iff_eq]
    constructor <;> (repeat' split) <;> simp_all
  constructor
  · intro data h
    obtain ⟨head, hitems⟩ := Renaming.Form.of_quote h
    cases hitems
    unfold Renaming.Form.of at h
    split at h
    · exact ⟨(hhead ‹_›).1 rfl, rfl⟩
    all_goals cases h
  · intro w h
    obtain ⟨head, hitems⟩ := Renaming.Form.of_quasiquote h
    cases hitems
    unfold Renaming.Form.of at h
    split at h
    · cases h
    · exact ⟨(hhead ‹_›).2 rfl, rfl⟩
    all_goals cases h

/-- A list of identifiers of the user's is made anew, even if it begins like a form that the pass
treats in a way of its own. -/
theorem settles_names {ns : List String} :
    Settles (code bound m) s u (.list ((ns.map Value.name).map .part))
      (· = .list ((ns.map Value.name).map .part)) := by
  intro own t more v w t' hst hlooks hw hu
  cases ns with
  | nil =>
    cases hlooks with
    | list hall =>
      cases hall
      obtain ⟨rfl, rfl⟩ := code_bare (.inl rfl) hw
      exact ⟨more, _, .refl hst.safe, .list .nil, rfl⟩
  | cons n ns =>
    cases m with
    | zero =>
      unfold code at hw
      cases hw
    | succ m =>
      obtain ⟨a, vs, rfl, hsplit, hvs⟩ := looks_pair hlooks
      obtain ⟨rfl, -⟩ := lookAll_parts.mp (show LookAll t more vs (((n :: ns).map Value.name).map
        .part) from hvs)
      rw [Renaming.code_pair hsplit] at hw
      have hlist : ∀ {w}, (liftM (Build.list ((n :: ns).map Value.name)) : Action Value) t =
          .ok w t' → ∃ most U, t.Adds more t' most ∧ t'.Looks most w U ∧
            U = .list (((n :: ns).map Value.name).map .part) := by
        intro w hw
        obtain ⟨most, hadds, hlooks⟩ := hst.safe.list lookAll_names hw
        exact ⟨most, _, hadds, hlooks, rfl⟩
      -- The list may be taken for any kind of form; each of them rebuilds the same names.
      cases hform : Renaming.Form.of ((n :: ns).map Value.name) .null with
      | quote data =>
        rw [hform] at hw
        obtain ⟨rfl, rfl⟩ := form_of_name.1 hform
        obtain ⟨rest, t₁, hrest, hcons⟩ := Action.ok_of_bind hw
        have hrest := rebuild_bare (fun hv h => strip_bare hv h) bare_names hrest
        obtain ⟨most, hadds, hlooks⟩ := hst.safe.list lookAll_names hrest
        obtain ⟨most', hadds', hlooks'⟩ := hadds.safe.cons (.part (guest_name "quote")) hlooks hcons
        exact ⟨most', _, hadds.trans hadds', hlooks', rfl⟩
      | quasiquote w' =>
        rw [hform] at hw
        obtain ⟨rfl, hnames⟩ := form_of_name.2 hform
        obtain ⟨w'', t₁, htemplate, hw⟩ := Action.ok_of_bind hw
        have hmem : w' ∈ ns.map Value.name := hnames ▸ .head _
        obtain ⟨rfl, rfl⟩ := template_bare (bare_names w' hmem) htemplate
        exact hlist (by rwa [List.map_cons, hnames])
      | definition =>
        rw [hform] at hw
        cases hw
        exact ⟨more, _, .refl hst.safe, hlooks, rfl⟩
      | other =>
        rw [hform] at hw
        exact hlist (rebuild_bare (fun hv h => code_bare hv h) bare_names hw)

theorem settled_names {ns : List String} (htu : s.Expands u) :
    Settled bound s u (.list ((ns.map Value.name).map .part))
      (.list ((ns.map Value.name).map .part)) := by
  refine .list ?_ (List.forall₂_same.mpr fun T hT => ?_)
  · intro Vs h
    cases ns <;> simp at h
  · obtain ⟨v, hv, rfl⟩ := List.mem_map.mp hT
    obtain ⟨n, -, rfl⟩ := List.mem_map.mp hv
    exact .part (.inl ⟨1, s, .refl s, htu, rfl, rfl⟩)

theorem settles (hT : T.Legible) : Settles (code bound m) s u T (Settled bound s u T) := by
  -- The induction is on the bound of the pass, the cases are those of a legible sketch.
  induction m generalizing T with
  | zero =>
    intro own t more v w t' _ _ hw
    unfold code at hw
    cases hw
  | succ m ih =>
    cases hT with
    | atom hv =>
      intro own t more v w t' hst hlooks hw hu
      obtain rfl := hlooks.eq_of_atom
      cases hlooks with
      | atom hp hknown hmark =>
        rw [code_atom hp hv] at hw
        cases hw
        exact ⟨more, _, .refl hst.safe, .atom (settledAtom_ne_pair hp) (known_settledAtom hknown)
          (marks_settledAtom hmark), .atom⟩
    | part =>
      intro own t more v w t' hst hlooks hw hu
      obtain ⟨most, U, hadds, hU, w', rfl, hw'⟩ := settles_part (m := m + 1)
        (fun D _ _ hs hv => (SyntaxDiscipline.keeps_code_template bound (m + 1)).1 hs hv)
        hst hlooks hw hu
      exact ⟨most, _, hadds, hU, .part hw'⟩
    | nil =>
      intro own t more v w t' hst hlooks hw hu
      cases hlooks with
      | list hall =>
        cases hall
        obtain ⟨rfl, rfl⟩ := code_bare (.inl rfl) hw
        exact ⟨more, _, .refl hst.safe, .list .nil, .list (by simp) .nil⟩
    | @list T Ts hplain h =>
      refine settles_list (fun U hU => ih (h U hU)) ?_ fun hvs => ?_
      · rintro Vs ⟨⟩
        exact hplain.ne_name (by simp) rfl
      · cases hvs with
        | cons hv _ =>
          unfold Renaming.Form.of
          rw [head_of_plain hplain hv]
    | @binding keyword hkeyword T Ts hflat h =>
      -- What is bound is a legible sketch, or a list of the user's identifiers, which may begin
      -- like any form.
      have htarget : Settles (code bound m) s u T (Settled bound s u T) := by
        rcases hflat.legible_or_names with hT | ⟨ns, rfl⟩
        · exact ih hT
        · intro own t more v w t' hst hlooks hw hu
          obtain ⟨most, U, hadds, hU, rfl⟩ := settles_names hst hlooks hw hu
          exact ⟨most, _, hadds, hU, settled_names (hst.expands.trans (hadds.expands.trans hu))⟩
      refine settles_list (List.forall_mem_cons.mpr ⟨ih (.atom (by simp [Value.name])),
        List.forall_mem_cons.mpr ⟨htarget, fun U hU => ih (h U hU)⟩⟩) ?_ fun hvs => ?_
      · rintro Vs ⟨⟩
        simp at hkeyword
      · cases hvs with
        | cons hv _ =>
          obtain rfl := hv.eq_of_atom
          rcases hkeyword with rfl | rfl <;> rfl
    | @quote vs =>
      intro own t more v w t' hst hlooks hw hu
      obtain ⟨a, items, rfl, hsplit, hitems⟩ := looks_pair hlooks
      cases hitems with
      | @cons head _ data _ hname hdata =>
        obtain rfl := hname.eq_of_atom
        have hform : Renaming.Form.of (.name "quote" :: data) .null = .quote data := rfl
        rw [Renaming.code_pair hsplit, hform] at hw
        obtain ⟨v', t₁, hrebuild, hcons⟩ := Action.ok_of_bind hw
        have hbuilt := (Action.Expanding.lift (Build.expanding_cons (.name "quote") v')).of_ok hcons
        -- Quoted data are stripped and put behind the keyword again.
        have hquoted : ∀ T ∈ [Sketch.list (vs.map .part)], Settles (strip m) s u T
            fun U => ∃ ws, U = .list (ws.map .part) ∧ List.Forall₂ (Treated strip s u) vs ws := by
          intro T hT
          obtain rfl := List.mem_singleton.mp hT
          exact settles_quoted
        obtain ⟨most, Us, hadds, hlooks', hUs⟩ := settles_rebuild (Renaming.expanding_strip m)
          (fun _ _ _ => strip_bare (.inl rfl)) hquoted hst hdata hrebuild (hbuilt.trans hu)
        cases hUs with
        | cons hws hnil =>
          cases hnil
          obtain ⟨ws, rfl, hws⟩ := hws
          have hhead : t₁.Looks most (.name "quote") (.atom (.name "quote")) :=
            .atom (by simp [Value.name]) (known_unstamped rfl) (Reserve.marks_unstamped rfl)
          obtain ⟨most', hadds', hlooks⟩ := hadds.safe.cons hhead hlooks' hcons
          exact ⟨most', _, hadds.trans hadds', hlooks, .quote hws⟩

theorem settled_of_clean {n : Nat} (hT : T.Legible) (hlooks : t.Looks own v T)
    (h : t.stampedWithin n v = some false) (hst : s.Expands t) (htu : t.Expands u) :
    Settled bound s u T T := by
  induction n generalizing v T with
  | zero => cases h
  | succ n ih =>
    -- A search that finds no stamp in a list finds none in its items.
    have hitems : ∀ {Ts : List Sketch}, (∀ T ∈ Ts, T.Legible) → t.Looks own v (.list Ts) →
        List.Forall₂ (Settled bound s u) Ts Ts := by
      intro Ts hTs hlooks
      rw [List.forall₂_same]
      intro U hU
      obtain ⟨w, hlooks, hclean⟩ := clean_item hlooks h hU
      exact ih (hTs U hU) hlooks hclean
    cases hT with
    | @atom w hv =>
      have hsame : settledAtom bound w = w := by
        obtain rfl := hlooks.eq_of_atom
        cases v with
        | symbol x =>
          have hx : x.isStamped = false := Option.some.inj h
          simp [settledAtom, hx]
        | _ => rfl
      have hatom : Settled bound s u (.atom w) (.atom (settledAtom bound w)) := .atom
      rwa [hsame] at hatom
    | part => exact .part (.inl ⟨n + 1, t, hst, htu, hlooks.eq_of_part ▸ h, rfl⟩)
    | nil => exact .list (by simp) .nil
    | list hplain hall =>
      refine .list ?_ (hitems hall hlooks)
      rintro Vs ⟨⟩
      exact hplain.ne_name (by simp) rfl
    | @binding keyword hkeyword T Ts hflat hall =>
      have hsettled : ∀ U ∈ .atom (.name keyword) :: T :: Ts, Settled bound s u U U := by
        intro U hU
        obtain ⟨w, hw, hclean⟩ := clean_item hlooks h hU
        rcases List.mem_cons.mp hU with rfl | hU
        · exact ih (.atom (by simp [Value.name])) hw hclean
        · rcases List.mem_cons.mp hU with rfl | hU
          · rcases hflat.legible_or_names with hT | ⟨ns, rfl⟩
            · exact ih hT hw hclean
            · exact settled_names (hst.trans htu)
          · exact ih (hall U hU) hw hclean
      refine .list ?_ (List.forall₂_same.mpr hsettled)
      rintro Vs ⟨⟩
      simp at hkeyword
    | @quote vs =>
      obtain ⟨data, hdata, hclean⟩ := clean_item hlooks h (.tail _ (.head _))
      refine .quote (List.forall₂_same.mpr fun w hw => ?_)
      cases n with
      | zero => cases hclean
      | succ n =>
        obtain ⟨w', hw', hclean⟩ := clean_item hdata hclean (List.mem_map_of_mem hw)
        obtain rfl := hw'.eq_of_part
        exact .inl ⟨n, t, hst, htu, hclean, rfl⟩

end Derived

end HygienicScheme
