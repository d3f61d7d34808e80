import HygienicScheme.Proofs.Evaluation.Direct
import HygienicScheme.Proofs.Store.Slots
import HygienicScheme.Proofs.Store.Spines

/-!
# Outlines of templates

The outline of a quasiquoted template tells its code from its data. Code are the operands of the
unquoting forms that the outermost quasiquotation owns; the forms of inner levels are data like the
pairs, vectors and atoms around them. A vector is outlined as the list of its items, which is also
how the evaluator walks it; the two agree as long as no item is a keyword of quasiquotation.
-/
namespace HygienicScheme

open Reference (innerLevel)

inductive Place
  | car
  | cdr
  | item (i : Nat)
  /-- From a form of quasiquotation to its operand. -/
  | operand
deriving DecidableEq, Repr

abbrev Position := List Place

inductive Outline
  | atom (v : Value)
  /-- A form that unquotes code. -/
  | code (keyword : QuasiKeyword) (operand : Value)
  /-- A form of an inner level, or one that begins such a level. -/
  | form (keyword : QuasiKeyword) (inner : Outline)
  | pair (car cdr : Outline)
  /-- A vector of these items, and the outline of their list. -/
  | vector (items : List Value) (list : Outline)
deriving Inhabited

structure Site where
  position : Position
  keyword : QuasiKeyword
  operand : Value

namespace Outline

def ofList : List Outline → Outline
  | [] => .atom .null
  | T :: more => .pair T (ofList more)

mutual

/-- The code in the part of a template at a position, from the left. -/
def sites : Outline → Position → List Site
  | .atom _, _ => []
  | .code keyword operand, p => [⟨.operand :: p, keyword, operand⟩]
  | .form _ inner, p => inner.sites (.operand :: p)
  | .pair car cdr, p => car.sites (.car :: p) ++ cdr.sites (.cdr :: p)
  | .vector _ list, p => list.itemSites 0 p

def itemSites : Outline → Nat → Position → List Site
  | .pair item more, i, p => item.sites (.item i :: p) ++ more.itemSites (i + 1) p
  | .atom _, _, _ | .code _ _, _, _ | .form _ _, _, _ | .vector _ _, _, _ => []

end

def splice? : Outline → Option Value
  | .code .unquoteSplicing operand => some operand
  | _ => none

end Outline

def Unkeyed (items : List Value) : Prop :=
  ∀ x, .symbol x ∈ items → QuasiKeyword.ofSymbol? x = none

/-- In all stores of which `P` holds the value is a template with this outline, so many levels deep,
and it lies in the same cells. -/
inductive Outlined (P : Store → Prop) : Nat → Value → Outline → Prop
  | atom {level : Nat} {v : Value} (hp : ∀ a, v ≠ .pair a) (hv : ∀ a, v ≠ .vector a) :
      Outlined P level v (.atom v)
  | code {level : Nat} {v operand : Value} {keyword : QuasiKeyword} (hlevel : level = 1)
      (hk : keyword ≠ .quasiquote)
      (hform : ∀ s, P s → s.quasiForm? v = some (keyword, operand)) :
      Outlined P level v (.code keyword operand)
  | form {level : Nat} {v operand : Value} {keyword : QuasiKeyword} {inner : Outline}
      (hk : keyword = .quasiquote ∨ level ≠ 1)
      (hform : ∀ s, P s → s.quasiForm? v = some (keyword, operand))
      (h : Outlined P (innerLevel keyword level) operand inner) :
      Outlined P level v (.form keyword inner)
  | pair {level : Nat} {a : Address} {p : Pair} {car cdr : Outline}
      (hform : ∀ s, P s → s.quasiForm? (.pair a) = none) (hpair : ∀ s, P s → s.pairAt a = p)
      (hcar : Outlined P level p.car car) (hcdr : Outlined P level p.cdr cdr) :
      Outlined P level (.pair a) (.pair car cdr)
  | vector {level : Nat} {a : Address} {values : List Value} {items : List Outline}
      (hvector : ∀ s, P s → (s.vectorAt a).toList = values) (hkeys : Unkeyed values)
      (hlength : values.length = items.length)
      (hitems : ∀ v T, (v, T) ∈ values.zip items → Outlined P level v T) :
      Outlined P level (.vector a) (.vector values (.ofList items))

variable {P Q : Store → Prop} {s t : Store} {v : Value} {T T' : Outline} {level n : Nat}

theorem Outlined.mono (h : Outlined P level v T) (hPQ : ∀ s, Q s → P s) : Outlined Q level v T := by
  induction h with
  | atom hp hv => exact .atom hp hv
  | code hlevel hk hform => exact .code hlevel hk fun s hs => hform s (hPQ s hs)
  | form hk hform _ ih => exact .form hk (fun s hs => hform s (hPQ s hs)) ih
  | pair hform hpair _ _ ihcar ihcdr =>
    exact .pair (fun s hs => hform s (hPQ s hs)) (fun s hs => hpair s (hPQ s hs)) ihcar ihcdr
  | vector hvector hkeys hlength _ ih =>
    exact .vector (fun s hs => hvector s (hPQ s hs)) hkeys hlength ih

theorem getElem_mem_zip {values : List Value} {items : List Outline} {i : Nat}
    (hi : i < values.length) (hi' : i < items.length) :
    (values[i], items[i]) ∈ values.zip items :=
  have hlt : i < (values.zip items).length := by
    rw [List.length_zip]
    exact Nat.lt_min.mpr ⟨hi, hi'⟩
  List.mem_iff_getElem.mpr ⟨i, hlt, List.getElem_zip⟩

theorem Outlined.unique (h : Outlined P level v T) (k : Outlined P level v T') (hs : P s) :
    T = T' := by
  induction h generalizing T' with
  | atom hp hv =>
    cases k with
    | atom => rfl
    | code _ _ hform | form _ hform =>
      obtain ⟨a, rfl⟩ := Store.quasiForm?_pair (hform s hs)
      exact absurd rfl (hp a)
    | pair => exact absurd rfl (hp _)
    | vector => exact absurd rfl (hv _)
  | code hlevel hk hform =>
    have hhere := hform s hs
    cases k with
    | atom hp =>
      obtain ⟨a, rfl⟩ := Store.quasiForm?_pair hhere
      exact absurd rfl (hp a)
    | code _ _ hform' => cases hhere.symm.trans (hform' s hs); rfl
    | form hk' hform' =>
      cases hhere.symm.trans (hform' s hs)
      exact absurd hk' (not_or.mpr ⟨hk, not_not.mpr hlevel⟩)
    | pair hform' => cases hhere.symm.trans (hform' s hs)
    | vector => cases hhere
  | form hk hform _ ih =>
    have hhere := hform s hs
    cases k with
    | atom hp =>
      obtain ⟨a, rfl⟩ := Store.quasiForm?_pair hhere
      exact absurd rfl (hp a)
    | code hlevel hk' hform' =>
      cases hhere.symm.trans (hform' s hs)
      exact absurd hk (not_or.mpr ⟨hk', not_not.mpr hlevel⟩)
    | form _ hform' hinner =>
      cases hhere.symm.trans (hform' s hs)
      rw [ih hinner]
    | pair hform' => cases hhere.symm.trans (hform' s hs)
    | vector => cases hhere
  | pair hform hpair _ _ ihcar ihcdr =>
    cases k with
    | atom hp => exact absurd rfl (hp _)
    | code _ _ hform' | form _ hform' => cases (hform s hs).symm.trans (hform' s hs)
    | pair _ hpair' hcar hcdr =>
      cases (hpair s hs).symm.trans (hpair' s hs)
      rw [ihcar hcar, ihcdr hcdr]
  | vector hvector _ hlength _ ih =>
    cases k with
    | atom _ hv => exact absurd rfl (hv _)
    | code _ _ hform' | form _ hform' => cases hform' s hs
    | vector hvector' _ hlength' hitems' =>
      cases (hvector s hs).symm.trans (hvector' s hs)
      have hitems := List.ext_getElem (hlength.symm.trans hlength') fun i hi hi' =>
        ih _ _ (getElem_mem_zip (hlength ▸ hi) hi)
          (hitems' _ _ (getElem_mem_zip (hlength ▸ hi) hi'))
      rw [hitems]

namespace Store

theorem quasiForm?_congr {a : Address} (ha : t.pairAt a = s.pairAt a)
    (hb : ∀ b, (s.pairAt a).cdr = .pair b → t.pairAt b = s.pairAt b) :
    t.quasiForm? (.pair a) = s.quasiForm? (.pair a) := by
  have hsame : ∀ head b, s.pairAt a = ⟨.symbol head, .pair b⟩ → t.pairAt b = s.pairAt b :=
    fun head b h => hb b (by rw [h])
  refine Option.ext fun ⟨keyword, operand⟩ => ?_
  rw [quasiForm?_eq_some, quasiForm?_eq_some, ha]
  refine exists_congr fun head => exists_congr fun b => and_congr_right fun hpair => ?_
  rw [hsame head b hpair]

theorem Grows.quasiForm?_eq (hg : s.Grows t) (hv : s.Tree v) : t.quasiForm? v = s.quasiForm? v := by
  cases v with
  | pair a =>
    refine quasiForm?_congr (hg.pairAt_eq hv.pair_lt) fun b hb => hg.pairAt_eq ?_
    have hcdr := hv.cdr
    rw [hb] at hcdr
    exact hcdr.pair_lt
  | _ => rfl

theorem Tree.operand {keyword : QuasiKeyword} {operand : Value} (h : s.Tree v)
    (hform : s.quasiForm? v = some (keyword, operand)) : s.Tree operand := by
  obtain ⟨a, rfl⟩ := quasiForm?_pair hform
  obtain ⟨head, b, ha, -, hb⟩ := quasiForm?_eq_some.mp hform
  have hcdr := h.cdr
  rw [ha] at hcdr
  have hcar := hcdr.car
  rwa [hb] at hcar

theorem Within.operand {keyword : QuasiKeyword} {operand : Value} (h : s.Within (n + 1) v)
    (hform : s.quasiForm? v = some (keyword, operand)) : s.Within n operand := by
  obtain ⟨a, head, rfl, -, hchain⟩ := quasiForm?_chain hform
  exact (h.parts hchain).1 _ (by simp)

theorem Throughout.operand {R : Value → Prop} {keyword : QuasiKeyword} {operand : Value}
    (h : s.Throughout R v) (hform : s.quasiForm? v = some (keyword, operand)) :
    s.Throughout R operand := by
  obtain ⟨a, head, rfl, -, hchain⟩ := quasiForm?_chain hform
  exact (h.chain hchain).1 _ (by simp)

/-- By itself the value is no vector with a keyword of quasiquotation among its items. -/
def Unkeyed (s : Store) (v : Value) : Prop :=
  ∀ a, v = .vector a → HygienicScheme.Unkeyed (s.vectorAt a).toList

end Store

open Store

/-- An acyclic template in which no vector has such a keyword among its items has an outline, and
building leaves the template as it is. -/
theorem exists_outlined (hv : s.Tree v) (hkeys : s.Throughout s.Unkeyed v) (level : Nat) :
    ∃ T, Outlined s.Grows level v T := by
  have hn := hv.within
  generalize s.cells = n at hn
  induction n generalizing v level with
  | zero => exact ⟨_, .atom hn.1 hn.2⟩
  | succ n ih =>
    cases hform : s.quasiForm? v with
    | some q =>
      obtain ⟨keyword, operand⟩ := q
      have hall : ∀ t, s.Grows t → t.quasiForm? v = some (keyword, operand) :=
        fun t hg => (hg.quasiForm?_eq hv).trans hform
      by_cases hk : keyword = .quasiquote ∨ level ≠ 1
      · obtain ⟨inner, hinner⟩ := ih (hv.operand hform) (hkeys.operand hform)
          (innerLevel keyword level) (hn.operand hform)
        exact ⟨_, .form hk hall hinner⟩
      · obtain ⟨hk, hlevel⟩ := not_or.mp hk
        exact ⟨_, .code (not_not.mp hlevel) hk hall⟩
    | none =>
      cases v with
      | pair a =>
        obtain ⟨car, hcar⟩ := ih hv.car (hkeys.slot .car) level hn.1
        obtain ⟨cdr, hcdr⟩ := ih hv.cdr (hkeys.slot .cdr) level hn.2
        exact ⟨_, .pair (fun t hg => (hg.quasiForm?_eq hv).trans hform)
          (fun t hg => hg.pairAt_eq hv.pair_lt) hcar hcdr⟩
      | vector a =>
        have hitems : ∀ w ∈ (s.vectorAt a).toList, ∃ T, Outlined s.Grows level w T :=
          fun w hw => ih (hv.item hw) (hkeys.slot (.item hw)) level (hn w hw)
        choose! outline houtline using hitems
        have hforall : List.Forall₂ (Outlined s.Grows level) (s.vectorAt a).toList
            ((s.vectorAt a).toList.map outline) :=
          List.forall₂_map_right_iff.mpr (List.forall₂_same.mpr houtline)
        obtain ⟨hlength, hzip⟩ := List.forall₂_iff_zip.mp hforall
        exact ⟨_, .vector (fun t hg => by rw [hg.vectorAt_eq hv.vector_lt]) (hkeys.here a rfl)
          hlength fun w T => hzip⟩
      | _ => exact ⟨_, .atom (by simp) (by simp)⟩

namespace Store

def step? (s : Store) : Place → Value → Option Value
  | .car, v => s.car? v
  | .cdr, v => s.cdr? v
  | .item i, .vector a => (s.vectorAt a)[i]?
  | .item _, _ => none
  | .operand, v => (s.quasiForm? v).map (·.2)

/-- What stands at a position in a value. -/
def part? (s : Store) : Position → Value → Option Value
  | [], v => some v
  | place :: p, v => (s.part? p v).bind (s.step? place)

end Store

namespace Outline

theorem mem_itemSites {items : List Outline} {i : Nat} {p : Position} {site : Site}
    (h : site ∈ (ofList items).itemSites i p) :
    ∃ j, ∃ T : Outline, items[j]? = some T ∧ site ∈ T.sites (.item (i + j) :: p) := by
  induction items generalizing i with
  | nil => cases h
  | cons T more ih =>
    rcases List.mem_append.mp h with h | h
    · exact ⟨0, T, rfl, h⟩
    · obtain ⟨j, T', hj, hT'⟩ := ih h
      exact ⟨j + 1, T', hj, by rwa [Nat.add_comm j 1, ← Nat.add_assoc]⟩

end Outline

theorem Outlined.part? {p : Position} {w : Value} (h : Outlined P level w T) (hs : P s)
    (hw : s.part? p v = some w) :
    ∀ site ∈ T.sites p, s.part? site.position v = some site.operand := by
  have hstep {place : Place} {u u' : Value} {q : Position} (hu : s.part? q v = some u)
      (h : s.step? place u = some u') : s.part? (place :: q) v = some u' := by
    rw [Store.part?, hu]
    exact h
  intro site hsite
  induction h generalizing p with
  | atom => cases hsite
  | code _ _ hform =>
    obtain rfl := List.mem_singleton.mp hsite
    exact hstep hw (by rw [Store.step?, hform s hs]; rfl)
  | form _ hform _ ih => exact ih (hstep hw (by rw [Store.step?, hform s hs]; rfl)) hsite
  | @pair _ a _ _ _ _ hpair _ _ ihcar ihcdr =>
    obtain rfl := hpair s hs
    rcases List.mem_append.mp hsite with hsite | hsite
    · exact ihcar (hstep hw rfl) hsite
    · exact ihcdr (hstep hw rfl) hsite
  | @vector _ a values items hvector _ hlength _ ih =>
    obtain ⟨j, T, hT, hsite⟩ := Outline.mem_itemSites hsite
    rw [Nat.zero_add] at hsite
    obtain ⟨hj, rfl⟩ := List.getElem?_eq_some_iff.mp hT
    refine ih _ _ (getElem_mem_zip (hlength ▸ hj) hj) (hstep hw ?_) hsite
    rw [Store.step?, ← Array.getElem?_toList, hvector s hs]
    exact List.getElem?_eq_getElem _

end HygienicScheme
