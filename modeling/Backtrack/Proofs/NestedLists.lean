/-
Lists of integers and of lists, written in brackets with commas between their elements. Main
statement: the grammar of such lists reads the text of every tree back as that tree, and stops right
behind it, whatever follows but a digit (`parse_render`).

A tree is readable if its text is, before any text that does not go on with a digit. A leaf is, as
its digits are followed by something else, and a list of readable trees is: behind each of them
stands a comma or the closing bracket.
-/
import Backtrack.Proofs.Decimal

namespace Backtrack

/-! ## The grammar -/

/-- The elements of a list from the second one on: those that a comma stands before. -/
def nestedListsLoop : Step :=
  .whileMatch (.literal ",") [.skip .spaces, .run (.ref "value"), .skip .spaces]

/-- A value is an integer or a list, and a list has values in brackets. -/
def nestedLists : Rules
  | "value" => some (.alt [.map .number (.tag "Number"), .map (.ref "list") (.tag "List")]
      (some "value"))
  | "list" => some (.block [.skip (.literal "["), .skip .spaces,
      .ifMatch (.ref "value") [nestedListsLoop] [], .skip .spaces, .skip (.literal "]")] none)
  | _ => none

/-! ## Trees -/

/-- Integers of sixty-four bits in lists of lists. -/
inductive Tree where
  | leaf (n : Int64)
  | node (ts : List Tree)

namespace Tree

mutual

/-- The text of a tree. -/
def render : Tree → Text
  | .leaf n => (toString n.toInt).toList
  | .node ts => '[' :: (List.intercalate ", ".toList (renders ts) ++ [']'])

def renders : List Tree → List Text
  | [] => []
  | t :: ts => t.render :: renders ts

end

mutual

/-- A tree as a value of a grammar. -/
def value : Tree → Value
  | .leaf n => .tagged "Number" (.int n.toInt)
  | .node ts => .tagged "List" (.list (values ts))

def values : List Tree → List Value
  | [] => []
  | t :: ts => t.value :: values ts

end

mutual

/-- A value is that of one tree only. -/
theorem value_injective : ∀ {t u : Tree}, t.value = u.value → t = u
  | .leaf _, .leaf _, h => by
    simp only [value, Value.tagged.injEq, Value.int.injEq, true_and] at h
    exact congrArg leaf (Int64.toInt_inj.1 h)
  | .node _, .node _, h => by
    simp only [value, Value.tagged.injEq, Value.list.injEq, true_and] at h
    exact congrArg node (values_injective h)
  | .leaf _, .node _, h | .node _, .leaf _, h => by simp [value] at h

theorem values_injective : ∀ {ts us : List Tree}, values ts = values us → ts = us
  | [], [], _ => rfl
  | _ :: _, _ :: _, h => by
    simp only [values, List.cons.injEq] at h
    rw [value_injective h.1, values_injective h.2]
  | [], _ :: _, h | _ :: _, [], h => by simp [values] at h

end

/-- The text of a tree is read as the tree wherever no digit follows. -/
def Readable (t : Tree) : Prop :=
  ∀ rest : Text, rest.opensWith isDigit = false →
    (Grammar.ref "value").Reads nestedLists t.render t.value rest

/-! ### Where the text of a tree begins -/

theorem isSpace_eq_false_of_isDigit {ch : Char} (h : isDigit ch = true) : isSpace ch = false := by
  refine decide_eq_false fun hspace => ?_
  simp only [List.mem_cons, List.not_mem_nil, or_false] at hspace
  rcases hspace with rfl | rfl | rfl | rfl | rfl <;> cases h

/-- No space stands before a tree. -/
theorem opensWith_isSpace_render (t : Tree) (rest : Text) :
    Text.opensWith isSpace (t.render ++ rest) = false := by
  cases t with
  | node ts => rfl
  | leaf n =>
    -- a leaf begins with its sign or with its first digit
    obtain ⟨d, ds, hdigits, hd⟩ := exists_toDigits_eq_cons n.toInt.natAbs
    rw [render, toList_toString, hdigits]
    split
    · rfl
    · exact isSpace_eq_false_of_isDigit hd

/-- The texts of the elements of a list from the second one on, each behind a separator. -/
def renderMore (ts : List Tree) : Text := (renders ts).flatMap (", ".toList ++ ·)

theorem intercalate_renders_cons (t : Tree) (ts : List Tree) :
    List.intercalate ", ".toList (renders (t :: ts)) = t.render ++ renderMore ts := by
  induction ts generalizing t with
  | nil => rw [renders, renders, List.intercalate_singleton]; exact (List.append_nil _).symm
  | cons u ts ih =>
    have hmore : renderMore (u :: ts) = ", ".toList ++ u.render ++ renderMore ts := rfl
    rw [renders, renders, List.intercalate_cons_cons, ← renders, ih, hmore]
    simp only [List.append_assoc]

/-- No space stands behind the opening bracket of a list. -/
theorem opensWith_isSpace_elements (ts : List Tree) (rest : Text) :
    Text.opensWith isSpace ((List.intercalate ", ".toList (renders ts) ++ [']']) ++ rest) = false := by
  cases ts with
  | nil => rfl
  | cons t ts =>
    rw [intercalate_renders_cons, List.append_assoc, List.append_assoc]
    exact opensWith_isSpace_render t _

/-- Behind an element of a list there is a comma or the closing bracket. -/
theorem opensWith_renderMore (ts : List Tree) (rest : Text) {keep : Char → Bool}
    (hcomma : keep ',' = false) (hclose : keep ']' = false) :
    Text.opensWith keep (renderMore ts ++ ']' :: rest) = false := by
  cases ts with
  | nil => exact hclose
  | cons t ts => exact hcomma

/-! ### Leaves and lists -/

variable {t : Tree} {ts : List Tree}

theorem readable_leaf (n : Int64) : (leaf n).Readable := by
  intro rest hrest
  have hn : Bounds.word.admit? n.toInt = some n.toInt :=
    Bounds.admit?_eq_some n.le_toInt (Int.le_of_lt_add_one n.toInt_lt)
  have hread : Grammar.number.Reads nestedLists (leaf n).render (.int n.toInt) rest :=
    Grammar.reads_of_layer (f := .int) (Parser.reads_toString hn hrest) fun _ => rfl
  exact ((hread.map (.tag "Number")).alt [] (List.forall_mem_nil _) _ _).ref rfl

/-- The loop of a list reads readable trees, each of which stands behind a comma. -/
theorem reads_loop (rest : Text) : ∀ {ts : List Tree}, (∀ t ∈ ts, t.Readable) →
    nestedListsLoop.Reads nestedLists (renderMore ts) (values ts) (']' :: rest)
  | [], _ => Step.reads_whileMatch_end (Grammar.refuses_literal rfl) _
  | t :: ts, h => by
    have ih := reads_loop rest fun u hu => h u (List.mem_cons_of_mem _ hu)
    have hvalue := h t List.mem_cons_self _ (opensWith_renderMore ts rest rfl rfl)
    -- the space of the separator is skipped, and no more than that
    have hspace : Text.opensWith isSpace (t.render ++ [] ++ (renderMore ts ++ ']' :: rest)) = false := by
      rw [List.append_assoc]
      exact opensWith_isSpace_render t _
    have hblank : ∀ ch ∈ [' '], isSpace ch = true := List.forall_mem_singleton.2 rfl
    have hturn : Step.AllRead nestedLists [.skip .spaces, .run (.ref "value"), .skip .spaces]
        ([' '] ++ (t.render ++ [])) [t.value] (renderMore ts ++ ']' :: rest) :=
      .skip (Grammar.reads_spaces hblank hspace)
        (.run hvalue (.noSpaces (opensWith_renderMore ts rest rfl rfl) (.nil _ _)))
    have hloop := Step.Reads.whileMatch (Grammar.reads_literal "," _) hturn ih
    have htext : renderMore (t :: ts) = ",".toList ++ ([' '] ++ (t.render ++ []) ++ renderMore ts) := by
      rw [List.append_nil]
      rfl
    rw [htext]
    exact hloop

/-- A text that begins neither with a sign nor with a digit is no leaf. -/
theorem refuses_leaf {rest : Text} (hminus : rest.opensWith (· = '-') = false)
    (hdigit : rest.opensWith isDigit = false) :
    (Grammar.map .number (.tag "Number")).Refuses nestedLists rest :=
  (Grammar.refuses_of_layer (f := .int) (Parser.refuses_number hminus hdigit) fun _ => rfl).map _

/-- No value begins with a closing bracket, so a list may have no elements. -/
theorem refuses_value (rest : Text) : (Grammar.ref "value").Refuses nestedLists (']' :: rest) := by
  have hlist : (Grammar.map (.ref "list") (.tag "List")).Refuses nestedLists (']' :: rest) :=
    ((Grammar.refuses_block (Grammar.refuses_literal rfl) _ _).ref rfl).map _
  refine (Grammar.refuses_alt (fun g hg => ?_) _).ref rfl
  simp only [List.mem_cons, List.not_mem_nil, or_false] at hg
  rcases hg with rfl | rfl
  · exact refuses_leaf rfl rfl
  · exact hlist

theorem reads_elements (rest : Text) (h : ∀ t ∈ ts, t.Readable) :
    (Step.ifMatch (.ref "value") [nestedListsLoop] []).Reads nestedLists
      (List.intercalate ", ".toList (renders ts)) (values ts) (']' :: rest) := by
  cases ts with
  | nil => exact Step.reads_ifMatch_no (refuses_value rest) (.nil _ _) _
  | cons t ts =>
    have hvalue := h t List.mem_cons_self _ (opensWith_renderMore ts rest rfl rfl)
    have hloop := reads_loop rest fun u hu => h u (List.mem_cons_of_mem _ hu)
    have hmore := Step.AllRead.cons (t := renderMore ts) hloop (.nil _ _)
    rw [List.append_nil, List.append_nil] at hmore
    rw [intercalate_renders_cons]
    exact Step.reads_ifMatch hvalue hmore []

theorem reads_list (rest : Text) (h : ∀ t ∈ ts, t.Readable) :
    (Grammar.ref "list").Reads nestedLists (node ts).render (.list (values ts)) rest := by
  have hclose : Step.AllRead nestedLists [.skip .spaces, .skip (.literal "]")] [']'] [] rest :=
    .noSpaces rfl (.skip (Grammar.reads_literal "]" _) (.nil _ _))
  have helements := Step.AllRead.cons (reads_elements rest h) hclose
  rw [List.append_nil] at helements
  have hsteps := Step.AllRead.skip (Grammar.reads_literal "[" _)
    (.noSpaces (opensWith_isSpace_elements ts rest) helements)
  exact (Grammar.reads_block hsteps).ref rfl

theorem readable_node (h : ∀ t ∈ ts, t.Readable) : (node ts).Readable := by
  intro rest _
  have hlist := (reads_list rest h).map (.tag "List")
  refine (hlist.alt [.map .number (.tag "Number")] (fun g hg => ?_) [] _).ref rfl
  rw [List.mem_singleton.1 hg]
  exact refuses_leaf rfl rfl

/-- Every tree is readable: its lists are, from the inside out. -/
theorem readable : ∀ t : Tree, t.Readable
  | .leaf n => readable_leaf n
  | .node ts => readable_node fun t _ => readable t

/-- Trees are told apart by their texts. -/
theorem render_injective {t u : Tree} (h : t.render = u.render) : t = u := by
  have hc : Cursor.Before ⟨t.render ++ [], 0, .default⟩ (t.render ++ []) := .beginning _ _
  have hu := u.readable [] rfl _ (by rw [← h]; exact hc)
  rw [← h] at hu
  have heq := (t.readable [] rfl _ hc).unique hu
  simp only [Outcome.ok.injEq, Prod.mk.injEq] at heq
  exact value_injective heq.1

end Tree

/-- The text of a tree is read back as that tree, up to its last character. -/
theorem parse_render (t : Tree) (rest : Text) (hrest : rest.opensWith isDigit = false)
    (config : Config) :
    Settles (fun n => ((Grammar.ref "value").engine nestedLists config n).parse (t.render ++ rest))
      (.ok (t.value, ⟨t.render ++ rest, t.render.size, config⟩)) := by
  have hc := Cursor.Before.beginning (t.render ++ rest) config
  have hread := t.readable rest hrest _ hc
  simp only [Engine.parse, Engine.parseAt_of_boundary _ hc.valid]
  rw [Cursor.past, Cursor.advance, Nat.zero_add] at hread
  exact hread

/-- The least integer, an empty list and a list in a list, before a digit that is not next. -/
theorem parse_render_deep :
    Text.opensWith isDigit " 7é".toList = false ∧
      Settles (fun n => ((Grammar.ref "value").engine nestedLists ⟨.stop, some 3⟩ n).parse
          "[-9223372036854775808, [], [[2, -3]]] 7é".toList)
        (.ok (.tagged "List" (.list [.tagged "Number" (.int (-9223372036854775808)),
            .tagged "List" (.list []), .tagged "List" (.list [.tagged "List" (.list
              [.tagged "Number" (.int 2), .tagged "Number" (.int (-3))])])]),
          ⟨"[-9223372036854775808, [], [[2, -3]]] 7é".toList, 37, ⟨.stop, some 3⟩⟩)) := by
  refine ⟨rfl, ?_⟩
  have htext : (Tree.node [.leaf Int64.minValue, .node [],
      .node [.node [.leaf 2, .leaf (-3)]]]).render =
        "[-9223372036854775808, [], [[2, -3]]]".toList := by decide +kernel
  have hread := parse_render (.node [.leaf Int64.minValue, .node [],
    .node [.node [.leaf 2, .leaf (-3)]]]) " 7é".toList rfl ⟨.stop, some 3⟩
  rw [htext] at hread
  exact hread

end Backtrack
