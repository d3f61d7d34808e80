import HygienicScheme.Proofs.Stamps.Settling
import HygienicScheme.Proofs.Stamps.Texts
import HygienicScheme.Proofs.Store.Everywhere

/-!
# No stamps in data

A session that is driven by texts starts without stamps, and evaluation keeps them out of data. So
in every state that it comes to, the symbols in bindings, promises, results and all that is reached
from them are the user's own, as long as no step takes a vector for a form with stamps in it.

The evaluator takes a vector in a template for the list of its items. If the last two of them are a
keyword and an operand, it sees a quasiquotation form there, and the pass that settles stamps, which
looks at the items one by one, saw none. This does no harm if there are no stamps in the operand.
Where that is so, and where only acyclic data is given to `eval`, evaluation keeps all data clean.
-/
namespace HygienicScheme

namespace Store

variable {s t : Store} {v r tail : Value} {items : List Value} {level : Nat} {a : Address}

def Listable (s : Store) (a : Address) : Prop :=
  ∀ before head operand, (s.vectorAt a).toList = before ++ [.symbol head, operand] →
    (QuasiKeyword.ofSymbol? head).isSome → s.Clean operand

/-- A list of templates is a template, if it does not end in a form with stamps. -/
theorem Spine.template (h : t.Spine r items tail) (hend : ∀ a, tail ≠ .pair a)
    (htail : t.Clean tail) (hitems : ∀ v ∈ items, t.Sound (.template level) v)
    (hlast : ∀ before head operand, items = before ++ [.symbol head, operand] →
      (QuasiKeyword.ofSymbol? head).isSome → t.Clean operand) :
    t.Sound (.template level) r := by
  induction h with
  | nil => exact .clean htail
  | @cons a items tail ha hspine ih =>
    obtain ⟨hcar, hmore⟩ := List.forall_mem_cons.mp hitems
    have hmore' := ih hend htail hmore fun before head operand heq =>
      hlast ((t.pairAt a).car :: before) head operand (by rw [heq]; rfl)
    cases hform : t.quasiForm? (.pair a) with
    | none => exact .cons ha hform hcar hmore'
    | some form =>
      obtain ⟨keyword, operand⟩ := form
      obtain ⟨_, head, -, hhead, hchain⟩ := quasiForm?_chain hform
      have hwhole := (Spine.cons ha hspine).chain hend
      obtain ⟨hlist, -⟩ := hwhole.unique hchain
      obtain ⟨hsymbol, -⟩ := List.cons.inj hlist
      refine .inner ha ?_ ?_ hform (.clean (hlast [] head operand hlist (by rw [hhead]; rfl)))
      · rw [hsymbol] at hcar ⊢
        exact hcar.template_atom (by simp) (by simp)
      · intro b hb
        rw [hb] at hspine
        exact hspine.pair_lt hend

theorem updates_modify_pair {change : Pair → Pair} (ha : s.Clean (.pair a))
    (hcar : s.Clean (change (s.pairAt a)).car) (hcdr : s.Clean (change (s.pairAt a)).cdr) :
    s.Updates { s with pairs := s.pairs.modify a change } where
  pairs_le := by simp
  vectors_le := Nat.le_refl _
  pair {b} _ := by
    rw [pairAt_modify]
    split
    · rename_i hab
      obtain ⟨rfl, -⟩ := hab
      exact .inr ⟨ha, hcar, hcdr⟩
    · exact .inl rfl
  vector _ := .inl rfl

theorem updates_modify_vector {change : Array Value → Array Value} (ha : s.Clean (.vector a))
    (hitems : ∀ v ∈ (change (s.vectorAt a)).toList, s.Clean v) :
    s.Updates { s with vectors := s.vectors.modify a change } where
  pairs_le := Nat.le_refl _
  vectors_le := by simp
  pair _ := .inl rfl
  vector {b} _ := by
    rw [vectorAt_modify]
    split
    · rename_i hab
      obtain ⟨rfl, -⟩ := hab
      exact .inr ⟨ha, hitems⟩
    · exact .inl rfl

abbrev Tidy (s : Store) : Prop := s.Roots (s.Sound .code) s.Clean fun v => v.isConstant

theorem Tidy.evolve (h : s.Tidy) (hst : s.Evolves t) :
    s.Roots (t.Sound .code) t.Clean fun v => v.isConstant :=
  h.mono (fun _ hv => hst.sound hv) (fun _ hv => hst.clean hv) fun _ hv => hv

theorem Tidy.expands (h : s.Tidy) (hst : s.Expands t) (ht : t.Compiled) : t.Tidy := by
  have hroots := h.evolve hst.toGrows.evolves
  refine ⟨fun a => ?_, fun a => ?_, fun f => ?_, ht⟩
  · rw [closureAt, hst.closures_eq]
    exact hroots.body a
  · rw [promiseAt, hst.promises_eq]
    exact hroots.promise a
  · rw [hst.bindings_eq f]
    exact hroots.binding f

theorem Tidy.step (h : s.Tidy) (hst : s.Evolves t)
    (ht : s.Roots (t.Sound .code) t.Clean (fun v => v.isConstant) → t.Tidy) :
    t.Tidy ∧ s.Evolves t := ⟨ht (h.evolve hst), hst⟩

theorem Tidy.aside (h : s.Tidy) (hp : t.pairs = s.pairs) (hv : t.vectors = s.vectors)
    (ht : s.Evolves t → s.Roots (t.Sound .code) t.Clean (fun v => v.isConstant) → t.Tidy) :
    t.Tidy ∧ s.Evolves t :=
  h.step (Grows.of_cells_eq hp hv).evolves (ht (Grows.of_cells_eq hp hv).evolves)

theorem Form.keeps_expandToplevel (env : Environment) (hs : s.Compiled) (hv : s.Form v) :
    Form.discipline.Keeps (Expansion.expandToplevel env v) s fun t r => t.Sound .code r :=
  ExpansionDiscipline.keeps_settled trivial hs hv fun _ _ ht hw =>
    ⟨(SyntaxDiscipline.keeps_renameIntroduced ht hw).1, fun _ _ h =>
      Renaming.renameIntroduced_sound hw h⟩

theorem Sound.template_list (h : s.Sound (.template level) (.vector a)) (hs : s.Tidy)
    (hlistable : s.Listable a) :
    let r := Build.list (s.vectorAt a).toList s
    (r.2.Tidy ∧ s.Evolves r.2) ∧ r.2.Sound (.template level) r.1 := by
  obtain ⟨hg, hspine⟩ := Build.listWithTail_spine (s.vectorAt a).toList .null s
  have hframes := congrArg Store.frames (Build.listWithTail_rest (s.vectorAt a).toList .null s)
  refine ⟨⟨hs.expands (Build.expanding_list _ s) (.of_frames hs.constant hframes), hg.evolves⟩, ?_⟩
  refine hspine.template (by simp) (clean_constant rfl) ?_ ?_
  · exact fun v hv => hg.evolves.sound (h.template_item v hv)
  · exact fun before head operand heq hhead =>
      hg.evolves.clean (hlistable before head operand heq hhead)

end Store

open Store

def settling : Regimen where
  Holds := Tidy
  Data := Clean
  Leads := Evolves
  refl := .refl
  trans := .trans
  data_leads hst hv := hst.clean hv
  constant hv _ _ _ := clean_constant hv
  name := clean_name
  slot _ hv hw := hv.slot hw
  cons hs hcar hcdr := ⟨hs.step (grows_push_pair _ _).evolves fun h => { h with },
    clean_push_pair hcar hcdr⟩
  vector hs hitems := ⟨hs.step (grows_push_vector _ _).evolves fun h => { h with },
    clean_push_vector hitems⟩
  bound hs _ hb := hs.binding _ _ hb
  promised a hs := hs.promise a
  promise hs hv := ⟨hs.aside rfl rfl fun hst h => h.push_promise (hst.clean hv),
    clean_constant rfl⟩
  child _ hs _ hbindings := ⟨hs.aside rfl rfl fun hst h =>
    h.push_frame fun b hb => hst.clean (hbindings b hb), trivial⟩
  setPair hs ha hcar hcdr :=
    hs.step (updates_modify_pair ha hcar hcdr).evolves fun h => { h with }
  setVector hs ha hitems := hs.step (updates_modify_vector ha hitems).evolves fun h => { h with }
  settle _ hs _ _ hv := hs.aside rfl rfl fun hst h => h.set_promise (hst.clean hv)
  bind f x _ hs hv := hs.aside rfl rfl fun hst h => h.bind f x (hst.clean hv)
  string _ hs := hs.aside rfl rfl fun _ h => { h with }
  emit _ hs := hs.aside rfl rfl fun _ h => { h with }
  exit hs := ⟨hs.aside rfl rfl fun _ h => { h with }, clean_constant rfl⟩
  Form role s := s.Sound role
  Expandable := Tree
  Listable := Listable
  Settleable _ _ := True
  form_leads hst hv := hst.sound hv
  form_data := .clean
  code_atom := Sound.code_atom
  quoted := Sound.quoted
  quasiquoted _ := Sound.quasiquoted
  slots _ := Sound.slots
  operands _ := Sound.operands
  template_atom := Sound.template_atom
  template_operand _ := Sound.template_operand
  template_slots _ := Sound.template_slots
  template_list hs hv hlistable := hv.template_list hs hlistable
  body a hs _ := hs.body a
  scope _ _ := trivial
  closure hs _ _ hbody := ⟨hs.aside rfl rfl fun hst h =>
    h.push_closure fun v hv => hst.sound (hbody v hv), clean_constant rfl⟩
  expanded env _ hs hv htree :=
    have h := Form.keeps_expandToplevel env hs.constant (htree.form hv)
    ⟨⟨hs.expands (Expansion.expanding_expandToplevel env _ _) h.1.1, h.1.2.evolves⟩, h.2⟩

/-! ### Sessions -/

def Task.data : Task → List Value
  | .apply f args => f :: args
  | .value v => [v]
  | .escape id v => [.escape id, v]
  | .eval .. | .tail .. | .template .. | .error _ => []

def Pending.data : Pending → List Value
  | .operands f done _ _ => f :: done
  | .mapping f columns done => f :: columns.flatten ++ done
  | .iteration f columns => f :: columns.flatten
  | .capture id => [.escape id]
  | .quasiAppend items => items
  | .quasiCons car => [car]
  | .nested | .call | .operator .. | .branch .. | .definition .. | .assignment .. | .body ..
  | .conjunction .. | .disjunction .. | .forcing _ | .quasiForm _ | .quasiSplice .. | .quasiRest ..
  | .quasiVector => []

section Values

variable {form : Role → Value → Prop} {P : Value → Prop}

theorem Task.All.data {task : Task} (h : task.All form P) : ∀ v ∈ task.data, P v := by
  cases task with
  | apply => exact List.forall_mem_cons.mpr h
  | value => exact List.forall_mem_singleton.mpr h
  | escape => exact List.forall_mem_cons.mpr ⟨h.1, List.forall_mem_singleton.mpr h.2⟩
  | _ => exact List.forall_mem_nil _

theorem Pending.All.data {waiting : Pending} (h : waiting.All form P) :
    ∀ v ∈ waiting.data, P v := by
  cases waiting with
  | operands => exact List.forall_mem_cons.mpr ⟨h.1, h.2.1⟩
  | mapping =>
    obtain ⟨hf, hcolumns, hdone⟩ := h
    refine List.forall_mem_cons.mpr ⟨hf, List.forall_mem_append.mpr ⟨fun v hv => ?_, hdone⟩⟩
    obtain ⟨column, hcolumn, hv⟩ := List.mem_flatten.mp hv
    exact hcolumns column hcolumn v hv
  | iteration =>
    obtain ⟨hf, hcolumns⟩ := h
    refine List.forall_mem_cons.mpr ⟨hf, fun v hv => ?_⟩
    obtain ⟨column, hcolumn, hv⟩ := List.mem_flatten.mp hv
    exact hcolumns column hcolumn v hv
  | capture | quasiCons => exact List.forall_mem_singleton.mpr h
  | quasiAppend => exact h
  | _ => exact List.forall_mem_nil _

end Values

namespace Machine

structure Tame (m : Machine) : Prop where
  acyclic : ∀ {form more}, m.task = .apply (.primitive (.control .eval)) (form :: more) →
    m.store.Tree form
  listable : ∀ {a env level}, m.task = .template (.vector a) env level → m.store.Listable a

/-- The value can be reached as data, from what is bound or promised or from the values that the
task and the stack have in hand. Forms still to be evaluated are not data, nor are the bodies of
closures, the names of bindings and the transformers. -/
inductive Data (m : Machine) : Value → Prop
  | bound {f : Address} {b : Symbol × Value} (h : b ∈ (m.store.frameAt f).bindings) : Data m b.2
  | promised (a : Address) : Data m (m.store.promiseAt a).content
  | task {v : Value} (h : v ∈ m.task.data) : Data m v
  | stack {waiting : Pending} {v : Value} (hw : waiting ∈ m.stack) (h : v ∈ waiting.data) :
      Data m v
  | slot {v w : Value} (h : Data m v) (hw : m.store.Slot v w) : Data m w

theorem Kept.clean {m : Machine} {v : Value} (hm : m.Kept settling) (hv : m.Data v) :
    m.store.Clean v := by
  induction hv with
  | bound hb => exact hm.store.binding _ _ hb
  | promised a => exact hm.store.promise a
  | task hv => exact hm.task.all.data _ hv
  | stack hw hv => exact (hm.stack _ hw).all.data _ hv
  | slot _ hw ih => exact ih.slot hw

end Machine

/-- Sessions that are given what texts bring: data with the user's symbols, and acyclic values
without stamps. -/
def textTerms : Terms where
  datum := Datum.Plain
  value s v := s.Clean v ∧ s.Tree v
  step := Machine.Tame

theorem settling_admits : settling.Admits textTerms where
  datum hd hs := EvaluationDiscipline.holds_place (fun x hx _ => clean_symbol.mpr (hd x hx)) hs
  value hv := hv
  step h := ⟨fun _ => trivial, h.acyclic, h.listable⟩

theorem placeable_plain {d : Datum} (hd : d.Plain) : Interpreter.Placeable textTerms.free d :=
  ⟨hd, fun s => ⟨(place_placed d s).holds.clean hd, (place_placed d s).holds.tree⟩⟩

theorem visits_texts (config : Config) (outputName : String) (texts : List String) :
    Interpreter.Visits config outputName textTerms
        (texts.foldl (fun i text => (i.evalText text).2)
          (Interpreter.new config outputName)).store ∨
      ∃ m, Machine.Reached config outputName textTerms m ∧ ¬ m.Tame := by
  obtain ⟨m, hm, hstore⟩ := (Interpreter.follows_texts (fun _ => trivial) config outputName
    (fun _ _ h d hd => placeable_plain (Reader.parseProgram_plain h d hd)) texts).store
  exact hm.of_free.imp_left fun hm => ⟨m, hm, hstore⟩

namespace Machine

variable {m : Machine} {config : Config} {outputName : String}

/-- In every state that a session driven by texts comes to, the symbols that can be reached as data
are the user's: each is the same as the symbol of its name that a text has. -/
theorem unstamped_of_reached (h : Reached config outputName textTerms m) {x : Symbol}
    (hx : m.Data (.symbol x)) :
    x.phase = Symbol.userPhase ∧ Value.eqv (.symbol x) (.name x.name) = true := by
  have hm := Regimen.kept_of_reached settling_admits (.empty (clean_constant rfl)) trivial h
  have hplain : x = .user x.name := clean_symbol.mp (hm.clean hx)
  exact ⟨congrArg Symbol.phase hplain, beq_iff_eq.mpr hplain⟩

end Machine

/-! ### A session that defines a transformer and uses it -/

namespace Quoting

open Expansion

/-- `(define-syntax m (syntax-rules () ((_) (quote tmp))))` -/
def definition : Datum :=
  .list [.name "define-syntax", .name "m", .list [.name "syntax-rules", .null,
    .list [.list [.name "_"], .list [.name "quote", .name "tmp"]]]]

def transformer : Transformer where
  name := "m"
  literals := []
  rules := [{
    number := 1
    pattern := .list (.item .wildcard .done)
    template := .list (.item (.free (.user "quote")) 0 (.item (.free (.user "tmp")) 0 .done))
    depths := [] }]

/-- Holds the definition at its last pair. -/
def defining : Store :=
  { (Interpreter.bare {} "out").store with
    pairs := #[⟨.name "_", .null⟩, ⟨.name "tmp", .null⟩, ⟨.name "quote", .pair 1⟩, ⟨.pair 2, .null⟩,
      ⟨.pair 0, .pair 3⟩, ⟨.pair 4, .null⟩, ⟨.null, .pair 5⟩, ⟨.name "syntax-rules", .pair 6⟩,
      ⟨.pair 7, .null⟩, ⟨.name "m", .pair 8⟩, ⟨.name "define-syntax", .pair 9⟩] }

/-- Holds the transformer. -/
def defined : Store := (started defining).install ⟨1, [0]⟩ transformer

/-- Holds `(m)` as well. -/
def ready : Store := { defined with pairs := defining.pairs.push ⟨.name "m", .null⟩ }

/-- Holds `(quote tmp)` with a stamped `tmp`. -/
def used : Store :=
  { started ready with
    pairs := ready.pairs ++ #[⟨.symbol ((Symbol.user "tmp").stamp 2 0), .null⟩,
      ⟨.name "quote", .pair 12⟩]
    uses := 1 }

/-- Holds the same form without the stamp. -/
def settled : Store :=
  { used with
    pairs := used.pairs ++ #[⟨.name "tmp", .null⟩, ⟨.name "quote", .pair 14⟩] }

theorem place_definition :
    definition.place (Interpreter.bare {} "out").store = (.pair 10, defining) := by
  have hpairs : (Interpreter.bare {} "out").store.pairs = #[] := rfl
  simp only [definition, Datum.list, Datum.listWithTail, List.foldr, Datum.name, Datum.place_pair,
    Datum.place_symbol, Datum.place_null, Build.cons_apply, hpairs]
  rfl

theorem define_transformer :
    SyntaxRules.define (started defining) "m" (.pair 7) = .ok transformer := by
  have htemplate : SyntaxRules.template ⟨started defining, "m", []⟩ []
      (started defining).walkBound false 0 (.pair 2) = .ok transformer.rules[0].template := by
    rw [show (started defining).walkBound = 168 + 1 from rfl, SyntaxRules.template,
      show (started defining).splitList? (.pair 2) = some ([.name "quote", .name "tmp"], .null)
        from rfl]
    dsimp only [SyntaxRules.escapedTemplate?]
    rw [SyntaxRules.templateItems_plain (.cons ⟨rfl, rfl⟩ (.cons ⟨rfl, rfl⟩ .nil))]
    rfl
  have hrule : SyntaxRules.rule ⟨started defining, "m", []⟩ 1 (.pair 4) =
      .ok transformer.rules[0] :=
    congrArg (· >>= fun t => (.ok ⟨1, transformer.rules[0].pattern, t, []⟩ : Except Error Rule))
      htemplate
  have hrules : SyntaxRules.rules ⟨started defining, "m", []⟩ 1 [.pair 4] = .ok transformer.rules :=
    congrArg (· >>= fun r => (.ok [r] : Except Error (List Rule))) hrule
  exact congrArg (· >>= fun rs => (.ok ⟨"m", [], rs⟩ : Except Error Transformer)) hrules

theorem expand_definition :
    expandToplevel ⟨1, [0]⟩ (.pair 10) defining = .ok (.pair 10) defined := by
  have hlist : (started defining).splitList? (.pair 10) =
      some ([.name "define-syntax", .name "m", .pair 7], .null) := rfl
  have hinstall : defineSyntax ⟨1, [0]⟩ [.name "m", .pair 7] .null (started defining) =
      .ok () defined := defineSyntax_eq (by decide) define_transformer
  have hexpand : expand ⟨1, [0]⟩ (maxDepth + 1) (.pair 10) (started defining) =
      .ok (.pair 10) defined := by
    rw [maxDepth, expand_list hlist]
    change EStateM.bind (defineSyntax ⟨1, [0]⟩ [.name "m", .pair 7] .null) _ _ = _
    rw [EStateM.bind, hinstall]
    rfl
  rw [expandToplevel_eq]
  change EStateM.bind (expand ⟨1, [0]⟩ (maxDepth + 1) (.pair 10)) _ _ = _
  rw [EStateM.bind, hexpand]
  rfl

theorem expand_use : expandToplevel ⟨1, [0]⟩ (.pair 11) ready = .ok (.pair 15) settled := by
  have hlist : (started ready).splitList? (.pair 11) = some ([.name "m"], .null) := rfl
  have hbrought : used.splitList? (.pair 13) =
      some ([.name "quote", .symbol ((Symbol.user "tmp").stamp 2 0)], .null) := rfl
  have htranscribe : transcribe ⟨1, [0]⟩ transformer (.pair 11) (started ready) =
      .ok (.pair 13) used := rfl
  have hquote : expand ⟨1, [0]⟩ maxDepth (.pair 13) used = .ok (.pair 13) used := by
    rw [maxDepth, expand_list hbrought]
    rfl
  have hexpand : expand ⟨1, [0]⟩ (maxDepth + 1) (.pair 11) (started ready) =
      .ok (.pair 13) used := by
    rw [expand_list hlist]
    change EStateM.bind (transcribe ⟨1, [0]⟩ transformer (.pair 11)) _ _ = _
    rw [EStateM.bind, htranscribe]
    exact hquote
  rw [expandToplevel_eq]
  change EStateM.bind (expand ⟨1, [0]⟩ (maxDepth + 1) (.pair 11)) _ _ = _
  rw [EStateM.bind, hexpand]
  rfl

def quoted : Machine := ⟨.value (.name "tmp"), [], 0, settled⟩

theorem reached_quoted : Machine.Reached {} "out" textTerms quoted := by
  have hdefinition : definition.Plain := by decide
  have hcall : (Datum.list [.name "m"]).Plain := by decide
  have hplaced : Machine.Reached {} "out" textTerms ⟨.value (.pair 10), [], 0, defining⟩ := by
    have hnext : Machine.Reached {} "out" textTerms
        ⟨.value (definition.place (Interpreter.bare {} "out").store).1, [], 0,
          (definition.place (Interpreter.bare {} "out").store).2⟩ :=
      .tail .refl (.place hdefinition)
    rwa [place_definition] at hnext
  have hform : textTerms.value defining (.pair 10) := by
    have hvalue := (placeable_plain hdefinition).2 (Interpreter.bare {} "out").store
    rwa [place_definition] at hvalue
  have hdefined := hplaced.tail (.form hform expand_definition)
  have hready := hdefined.tail (.place hcall)
  have hused := hready.tail (.form ((placeable_plain hcall).2 defined) expand_use)
  exact hused.tail (.step ⟨nofun, nofun⟩)

end Quoting

/-- The quoted symbol is the user's, though the template brought it with a stamp. -/
theorem unstamped_of_reached_quoted :
    Quoting.quoted.outcome? = some (.value (.symbol (.user "tmp"))) ∧
      (Quoting.quoted.store.pairAt 12).car = .symbol ((Symbol.user "tmp").stamp 2 0) ∧
      (Symbol.user "tmp").phase = Symbol.userPhase ∧
      Value.eqv (.symbol (.user "tmp")) (.name "tmp") = true :=
  ⟨rfl, rfl, Machine.unstamped_of_reached Quoting.reached_quoted
    (.task (List.mem_singleton.mpr rfl))⟩

end HygienicScheme
