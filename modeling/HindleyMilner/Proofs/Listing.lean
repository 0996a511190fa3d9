import HindleyMilner.Expr.Listing
import HindleyMilner.Proofs.BaseTypes
import Mathlib.Data.List.Forall2

/-!
A listing has one line for each node. The walk over the tree and the listing visit the nodes in the
same order, and no line holds a line end: a quoted text is written in printable ASCII, a cut label
is a part of the source text, and the text of an inferred type is made of words, spaces and
brackets. So the lines are what the listing falls into at its line ends.
-/

namespace HindleyMilner

namespace Json

theorem mem_hex {width n : Nat} {c : Char} (h : c ∈ Text.hex width n) :
    ∃ k < 16, c = Text.hexDigit k := by
  induction width generalizing n with
  | zero => cases h
  | succ width ih =>
      rcases List.mem_append.1 h with front | last
      · exact ih front
      · exact ⟨n % 16, Nat.mod_lt n (by omega), List.mem_singleton.1 last⟩

def Visible (p : Point) : Prop :=
  0x20 ≤ p.toNat ∧ p.toNat < 0x7F

theorem visible_unitEscape (u : Nat) : ∀ p ∈ unitEscape u, Visible p := by
  have digits : ∀ k < 16, Visible (Text.hexDigit k) := by unfold Visible; decide
  simp only [unitEscape, List.forall_mem_cons]
  refine ⟨by unfold Visible; decide, by unfold Visible; decide, fun p hp => ?_⟩
  obtain ⟨c, hc, rfl⟩ := List.mem_map.1 hp
  obtain ⟨k, small, rfl⟩ := mem_hex hc
  exact digits k small

theorem visible_escape (p : Point) : ∀ q ∈ escape p, Visible q := by
  have short : ∀ l ∈ ("\\\"nrtbf" : Text), ∀ q ∈ [.char '\\', l], Visible q := by
    unfold Visible
    decide
  fun_cases escape p with
  | case1 quoted => exact short p (by rcases quoted with rfl | rfl <;> decide)
  | case2 | case3 | case4 | case5 | case6 => exact short _ (by decide)
  | case7 n plain _ _ _ _ _ printable => exact List.forall_mem_singleton.2 printable
  | case8 n => exact visible_unitEscape n
  | case9 n =>
      exact List.forall_mem_append.2 ⟨visible_unitEscape _, visible_unitEscape _⟩

theorem visible_quote (text : Text) : ∀ p ∈ quote text, Visible p := by
  have mark : Visible '"' := by unfold Visible; decide
  rw [quote, List.forall_mem_cons, List.forall_mem_append]
  refine ⟨mark, fun p hp => ?_, List.forall_mem_singleton.2 mark⟩
  obtain ⟨q, -, inside⟩ := List.mem_flatMap.1 hp
  exact visible_escape q p inside

end Json

namespace Expr

variable {ν μ : Type}

theorem sizeOf_lt_of_mem_children {e child : Expr ν} (h : child ∈ e.children) :
    sizeOf child < sizeOf e := by
  cases e with
  | int | bool | str | ident => cases h
  | func | not =>
      rw [List.mem_singleton.1 h]
      simp only [func.sizeOf_spec, not.sizeOf_spec]
      omega
  | binary | call | letIn | cond =>
      simp only [children, List.mem_cons, List.not_mem_nil, or_false] at h
      rcases h with rfl | rfl | rfl <;>
        simp only [binary.sizeOf_spec, call.sizeOf_spec, letIn.sizeOf_spec, cond.sizeOf_spec] <;>
        omega

def levels (depth : Nat) (e : Expr ν) : List (Nat × Expr ν) :=
  (depth, e) :: e.children.attach.flatMap fun child => child.1.levels (depth + 1)
termination_by e
decreasing_by exact sizeOf_lt_of_mem_children child.2

theorem levels_eq (depth : Nat) (e : Expr ν) :
    e.levels depth = (depth, e) :: e.children.flatMap (levels (depth + 1)) := by
  rw [levels, List.flatMap_subtype fun _ _ => rfl, List.unattach_attach]

theorem nodes_eq (e : Expr ν) : e.nodes = e :: e.children.flatMap nodes := by
  cases e <;> simp [nodes, children]

theorem notes_eq (e : Expr ν) : e.notes = e.note :: e.children.flatMap notes := by
  cases e <;> simp [notes, note, children]

theorem induction_on_children {motive : Expr ν → Prop}
    (step : ∀ e, (∀ child ∈ e.children, motive child) → motive e) (e : Expr ν) : motive e := by
  induction e with
  | int | bool | str | ident => exact step _ nofun
  | func _ _ body ih | not _ body ih => exact step _ (List.forall_mem_singleton.2 ih)
  | binary _ _ left right ihl ihr | call _ left right ihl ihr | letIn _ _ _ left right ihl ihr =>
      exact step _ (List.forall_mem_cons.2 ⟨ihl, List.forall_mem_singleton.2 ihr⟩)
  | cond _ test yes no iht ihy ihn =>
      exact step _ (List.forall_mem_cons.2
        ⟨iht, List.forall_mem_cons.2 ⟨ihy, List.forall_mem_singleton.2 ihn⟩⟩)

theorem map_snd_levels (depth : Nat) (e : Expr ν) : (e.levels depth).map Prod.snd = e.nodes := by
  induction e using induction_on_children generalizing depth with
  | step e ih =>
      rw [levels_eq, nodes_eq, List.map_cons, List.map_flatMap]
      exact congrArg _ (List.flatMap_congr fun child hc => ih child hc (depth + 1))

theorem map_note_nodes (e : Expr ν) : e.nodes.map note = e.notes := by
  induction e using induction_on_children with
  | step e ih =>
      rw [nodes_eq, notes_eq, List.map_cons, List.map_flatMap]
      exact congrArg _ (List.flatMap_congr ih)

theorem parts_of_mem_nodes {e node : Expr ν} (h : node ∈ e.nodes) :
    node.names ⊆ e.names ∧ node.numerals ⊆ e.numerals := by
  induction e using induction_on_children with
  | step e ih =>
      rw [nodes_eq, List.mem_cons, List.mem_flatMap] at h
      rcases h with rfl | ⟨child, hc, inside⟩
      · exact ⟨List.Subset.refl _, List.Subset.refl _⟩
      · obtain ⟨names, -, numerals, -⟩ := parts_of_mem_children hc
        obtain ⟨inner, short⟩ := ih child hc inside
        exact ⟨List.Subset.trans inner names, List.Subset.trans short numerals⟩

theorem names_map (f : ν → μ) (e : Expr ν) : (e.map f).names = e.names := by
  induction e <;> simp_all [map, names]

theorem numerals_map (f : ν → μ) (e : Expr ν) : (e.map f).numerals = e.numerals := by
  induction e <;> simp_all [map, numerals]

open Source

theorem word_mem_grouped {w : Word} {bare : Bool} {ls : List Lexeme} :
    .word w ∈ grouped bare ls ↔ .word w ∈ ls := by
  cases bare <;> simp [grouped]

theorem name_of_mem_lexemes {e : Expr ν} {x : Text} (h : .word (.name x) ∈ e.lexemes) :
    x ∈ e.names := by
  induction e with
  | int | bool | str | ident | func | not | binary | cond | call =>
      simp_all [lexemes, names, word_mem_grouped] <;> grind
  | letIn _ name recursive value body ihv ihb =>
      cases recursive <;> simp_all [lexemes, names] <;> grind

theorem newline_notMem_spell {e : Expr ν} (names : ∀ x ∈ e.names, .char '\n' ∉ x) :
    .char '\n' ∉ spell e.lexemes := by
  intro mem
  obtain ⟨l, hl, inside⟩ := List.mem_flatMap.1 mem
  cases l with
  | word w =>
      cases w with
      | mark m =>
          cases m with
          | literal value => cases value <;> revert inside <;> decide
          | symbol op => cases op <;> revert inside <;> decide
          | func | arrow | not | cond | yes | no | letIn | recursive | inside =>
              revert inside
              decide
      | numeral value =>
          rcases mem_toString value inside with sign | digit
          · cases sign
          · cases digit
      | name x => exact names x (name_of_mem_lexemes hl) inside
  | quoted value =>
      have visible := (Json.visible_quote value _ inside).1
      revert visible
      decide
  | space | opening | closing => cases inside with | tail _ rest => cases rest

end Expr

theorem Ty.newline_notMem_text {t : Ty} (legible : t.legible = true) : '\n' ∉ t.text.toList := by
  induction t with
  | prim p =>
      have base : ∀ p ∈ baseNames, '\n' ∉ p.toList := by decide
      exact base p (List.contains_iff_mem.1 legible)
  | var x => exact fun mem => Bool.false_ne_true (isPart_of_mem_varText legible '\n' mem)
  | arrow d c ihd ihc =>
      simp only [Ty.legible, Bool.and_eq_true] at legible
      cases shape : d.isCompound <;> simp [text, shape, ihd legible.1, ihc legible.2]
  | poly bound b ih =>
      simp only [Ty.legible, Bool.and_eq_true, List.all_eq_true] at legible
      have names : '\n' ∉ (" ".intercalate (bound.map varText)).toList := by
        intro mem
        rcases mem_names legible.1 '\n' mem with space | part
        · cases space
        · cases part
      simp only [text, String.toList_append, List.mem_append, not_or]
      exact ⟨⟨⟨by decide, names⟩, by decide⟩, ih legible.2⟩
  | foreign => cases legible

namespace ListingStyle

variable {style : ListingStyle}

/-- The line shows a node at this depth: indented by depth, with a label that fits the width, and
with the type. The label is the source text or, if that does not fit, a proper beginning of it that
three dots bring to the width. -/
def Shows (style : ListingStyle) (line : Text) (node : Nat × Annotated) : Prop :=
  ∃ source label : Text, node.2.source = .ok source ∧
    line = Text.spaces (style.indent * node.1).toNat ++ label ++ " : " ++ node.2.type.text ∧
    label.length ≤ style.width ∧
    (label = source ∨ style.width < source.length ∧ label.length = style.width ∧
      ∃ start : Text, start <+: source ∧ start ≠ source ∧ label = start ++ "...")

theorem shows_line (wide : 3 ≤ style.width) {node : Nat × Annotated} {source : Text}
    (written : node.2.source = .ok source) :
    style.Shows (style.line node.1 source node.2.type) node := by
  refine ⟨source, style.label source, written, rfl, ?_⟩
  by_cases long : style.width < source.length
  · have kept : (style.width - 3).toNat < source.length := by omega
    have cut : style.label source = source.take (style.width - 3).toNat ++ "..." := by
      rw [label, if_pos long, front, if_neg (by omega)]
    have size : (source.take (style.width - 3).toNat).length = (style.width - 3).toNat := by
      rw [List.length_take]
      omega
    have full : (style.label source).length = style.width := by
      rw [cut, List.length_append, size]
      change (((style.width - 3).toNat + 3 : Nat) : Int) = style.width
      omega
    refine ⟨Int.le_of_eq full, .inr ⟨long, full, _, List.take_prefix _ _, ?_, cut⟩⟩
    intro whole
    rw [whole] at size
    omega
  · rw [label, if_neg long]
    exact ⟨by omega, .inl rfl⟩

def nodeLine (style : ListingStyle) (node : Nat × Annotated) : Text :=
  style.line node.1 (Source.spell node.2.lexemes) node.2.type

theorem mem_label {text : Text} {p : Point} (h : p ∈ style.label text) : p ∈ text ∨ p = '.' := by
  have part : ∀ count, front count text ⊆ text := by
    intro count
    unfold front
    split <;> exact List.take_subset _ _
  unfold label at h
  split at h
  · rcases List.mem_append.1 h with start | dot
    · exact .inl (part _ start)
    · exact .inr (by simpa [Text.ofString, Text.ofChars] using dot)
  · exact .inl h

theorem newline_notMem_line {depth : Nat} {text : Text} {type : Ty} (label : .char '\n' ∉ text)
    (shown : '\n' ∉ type.text.toList) : .char '\n' ∉ style.line depth text type := by
  have own : .char '\n' ∉ style.label text := by
    intro mem
    rcases mem_label mem with inside | dot
    · exact label inside
    · cases dot
  simp [line, Text.spaces, Text.ofString, Text.ofChars, own, shown]

end ListingStyle

namespace Annotated

open Source

theorem lines_eq (style : ListingStyle) (depth : Nat) (tree : Annotated) :
    tree.lines style depth =
      Text.limited tree.numerals ((tree.levels depth).map style.nodeLine) := by
  induction tree generalizing depth with
  | int | bool | str | ident =>
      rw [Expr.levels_eq]
      simp [lines, Expr.source_eq, Expr.children, ListingStyle.nodeLine, type]
  | func _ _ _ ih | not _ _ ih =>
      rw [Expr.levels_eq, ← Text.limited_append_self]
      simp [lines, Expr.source_eq, Expr.numerals, Expr.children, ListingStyle.nodeLine, type, ih]
  | binary _ _ _ _ ihl ihr | call _ _ _ ihl ihr | letIn _ _ _ _ _ ihl ihr =>
      rw [Expr.levels_eq, ← Text.limited_append_self]
      simp [lines, Expr.source_eq, Expr.numerals, Expr.children, ListingStyle.nodeLine, type, ihl,
        ihr]
  | cond _ _ _ _ iht ihy ihn =>
      rw [Expr.levels_eq, ← Text.limited_append_self]
      simp [lines, Expr.source_eq, Expr.numerals, Expr.children, ListingStyle.nodeLine, type, iht,
        ihy, ihn]

theorem mem_nodes_of_mem_levels {tree : Annotated} {node : Nat × Annotated}
    (h : node ∈ tree.levels 0) : node.2 ∈ tree.nodes := by
  rw [← Expr.map_snd_levels 0]
  exact List.mem_map_of_mem h

theorem newline_notMem_lines {style : ListingStyle} {tree : Annotated}
    (names : ∀ x ∈ tree.names, .char '\n' ∉ x) (legible : ∀ t ∈ tree.types, t.legible = true) :
    ∀ line ∈ (tree.levels 0).map style.nodeLine, .char '\n' ∉ line := by
  intro line hl
  obtain ⟨node, hn, rfl⟩ := List.mem_map.1 hl
  have inside := mem_nodes_of_mem_levels hn
  have shown : type node.2 ∈ tree.types := by
    rw [types, ← Expr.map_note_nodes, List.map_map]
    exact List.mem_map_of_mem inside
  refine ListingStyle.newline_notMem_line ?_ (Ty.newline_notMem_text (legible _ shown))
  exact Expr.newline_notMem_spell fun x hx => names x ((Expr.parts_of_mem_nodes inside).1 hx)

theorem listing_eq (style : ListingStyle) (tree : Annotated) :
    tree.listing style = Text.limited tree.numerals
      (List.intercalate "\n" ((tree.levels 0).map style.nodeLine)) := by
  simp [listing, lines_eq]

theorem splitOn_lines {style : ListingStyle} {tree : Annotated}
    (absent : ∀ line ∈ (tree.levels 0).map style.nodeLine, .char '\n' ∉ line) :
    (List.intercalate ("\n" : Text) ((tree.levels 0).map style.nodeLine)).splitOn (.char '\n') =
      (tree.levels 0).map style.nodeLine := by
  have some : (tree.levels 0).map style.nodeLine ≠ [] := by
    rw [Expr.levels_eq]
    exact List.cons_ne_nil _ _
  exact List.splitOn_intercalate _ absent some

theorem shows_nodeLine {style : ListingStyle} (wide : 3 ≤ style.width) {tree : Annotated}
    (short : ∀ n ∈ tree.numerals, Text.digitCount n ≤ Text.digitLimit) {node : Nat × Annotated}
    (h : node ∈ tree.levels 0) : style.Shows (style.nodeLine node) node := by
  have inside := (Expr.parts_of_mem_nodes (mem_nodes_of_mem_levels h)).2
  refine ListingStyle.shows_line wide ?_
  rw [Expr.source_eq]
  exact Text.limited_eq_ok.2 ⟨fun n hn => short n (inside hn), rfl⟩

end Annotated

/-- An annotated run succeeds with a tree whose listing has one line for each node, in the order of
the walk, and each line shows its node. There is no listing only where the program holds a number
that is too long to be written. -/
theorem listing_shows_every_node {e : Program} {result : Inference} {trace : Trace}
    (ran : e.run true = .ok result trace) (names : ∀ x ∈ e.names, .char '\n' ∉ x) :
    ∃ tree, result.tree = some tree ∧ tree.erase = e ∧
      (tree.levels 0).map Prod.snd = tree.nodes ∧
      ∀ style : ListingStyle,
        ((∃ n ∈ e.numerals, 4300 < (Nat.toDigits 10 n.natAbs).length) →
          tree.listing style = .error ⟨4300⟩) ∧
        ((∀ n ∈ e.numerals, (Nat.toDigits 10 n.natAbs).length ≤ 4300) → 3 ≤ style.width →
          ∃ text, tree.listing style = .ok text ∧
            (text.splitOn (.char '\n')).length = tree.nodes.length ∧
            List.Forall₂ style.Shows (text.splitOn (.char '\n')) (tree.levels 0)) := by
  obtain ⟨tree, annotated, rfl, legible⟩ := exists_legible_tree ran
  rw [Annotated.erase, Expr.names_map] at names
  refine ⟨tree, annotated, rfl, Expr.map_snd_levels 0 tree, fun style => ?_⟩
  rw [Annotated.erase, Expr.numerals_map, Annotated.listing_eq]
  constructor
  · rintro ⟨n, hn, long⟩
    exact Text.limited_of_long hn long
  · intro short wide
    refine ⟨_, if_pos short, ?_⟩
    rw [Annotated.splitOn_lines (Annotated.newline_notMem_lines names legible)]
    constructor
    · rw [List.length_map, ← Expr.map_snd_levels 0, List.length_map]
    · rw [List.forall₂_map_left_iff, List.forall₂_same]
      exact fun node hn => Annotated.shows_nodeLine wide short hn

theorem listing_shows_every_node_cut :
    let e : Program := .call none (.func none "x" (.ident none "x")) (.str none "a\nb")
    let style : ListingStyle := { indent := 1, width := 5 }
    ∃ result trace tree, e.run true = .ok result trace ∧ result.tree = some tree ∧
      (∀ x ∈ e.names, .char '\n' ∉ x) ∧
      (∀ n ∈ e.numerals, (Nat.toDigits 10 n.natAbs).length ≤ 4300) ∧ 3 ≤ style.width ∧
      tree.listing style =
        .ok "(f... : String\n fu... : String -> String\n  x : String\n \"a... : String" ∧
      ∃ text, tree.listing style = .ok text ∧
        (text.splitOn (.char '\n')).length = tree.nodes.length ∧
        List.Forall₂ style.Shows (text.splitOn (.char '\n')) (tree.levels 0) := by
  intro e style
  let string : Option Location × Ty := (none, .prim "String")
  let tree : Annotated := .call string
    (.func (none, .arrow (.prim "String") (.prim "String")) "x" (.ident string "x"))
    (.str string "a\nb")
  have solves : Unify.solve [⟨.var "a", .var "b", none⟩,
      ⟨.arrow (.var "a") (.var "b"), .arrow .string (.var "c"), none⟩] =
      .ok ⟨[("c", .string), ("b", .string), ("a", .string)], 2⟩ := by
    cbv
  have annotated : ∃ result trace, e.run true = .ok result trace ∧ result.tree = some tree :=
    Program.exists_run rfl solves rfl rfl
  have listed : tree.listing style =
      .ok "(f... : String\n fu... : String -> String\n  x : String\n \"a... : String" := by
    decide +kernel
  have names : ∀ x ∈ e.names, .char '\n' ∉ x := by decide
  have short : ∀ n ∈ e.numerals, (Nat.toDigits 10 n.natAbs).length ≤ 4300 := by decide
  have wide : 3 ≤ style.width := by decide
  obtain ⟨result, trace, ran, found⟩ := annotated
  obtain ⟨shown, same, -, -, shows⟩ := listing_shows_every_node ran names
  obtain rfl : shown = tree := Option.some.inj (same.symm.trans found)
  exact ⟨result, trace, tree, ran, same, names, short, wide, listed, (shows style).2 short wide⟩

theorem Text.lt_digitCount_pow {k : Nat} (pos : 0 < k) :
    k < digitCount (.ofNat (Nat.pow 10 k)) := by
  have many : ¬(Nat.toDigits 10 (Nat.pow 10 k)).length ≤ k := by
    rw [Nat.length_toDigits_le_iff (by decide) pos]
    exact Nat.lt_irrefl _
  exact Nat.not_le.1 many

theorem long_numeral_has_no_listing :
    let e : Program := .int none (.ofNat (Nat.pow 10 Text.digitLimit))
    ∃ result trace tree, e.run true = .ok result trace ∧ result.tree = some tree ∧
      (∀ x ∈ e.names, .char '\n' ∉ x) ∧
      ∀ style : ListingStyle, tree.listing style = .error ⟨4300⟩ := by
  intro e
  have solves : Unify.solve [] = .ok ⟨[], 1⟩ := by cbv
  have long : Text.digitLimit < Text.digitCount (.ofNat (Nat.pow 10 Text.digitLimit)) :=
    Text.lt_digitCount_pow (by decide)
  obtain ⟨result, trace, ran, found⟩ := Program.exists_run (e := e) rfl solves rfl rfl
  refine ⟨result, trace, _, ran, found, List.forall_mem_nil _, fun style => ?_⟩
  rw [Annotated.listing_eq]
  exact Text.limited_of_long List.mem_cons_self long

end HindleyMilner
