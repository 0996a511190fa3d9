import HindleyMilner.Proofs.Lexemes

/-!
Source text is read back. The reader takes one lexeme after another and keeps a stack of what is
still open: brackets, and the `fun`, `if` and `let` whose last part has no closing mark of its own.
Such a part ends with the expression around it, so what counts of the reader is the expression that
it holds once everything that may end has ended. Every expression is read from its lexemes as its
text shows it: without notes, and with the pairs joined in its literals.
-/

namespace HindleyMilner

namespace Expr

variable {ν : Type}

def bare (e : Expr ν) : Expr Unit :=
  e.map fun _ => ()

/-- What the text shows of an expression: no notes, and no pair in two halves. -/
def shown : Expr ν → Expr Unit
  | int _ value => int () value
  | bool _ value => bool () value
  | str _ value => str () value.joined
  | ident _ name => ident () name
  | func _ parameter body => func () parameter body.shown
  | not _ operand => not () operand.shown
  | binary _ op left right => binary () op left.shown right.shown
  | cond _ test yes no => cond () test.shown yes.shown no.shown
  | call _ callee argument => call () callee.shown argument.shown
  | letIn _ name recursive value body => letIn () name recursive value.shown body.shown

end Expr

namespace Source

inductive Reading where
  | start
  | done (e : Expr Unit)
  | negation
  | operation (op : Operator) (left : Expr Unit)
  | parameter
  | arrow (parameter : Text)
  | binder (recursive : Bool)
  | equals (recursive : Bool) (name : Text)

def Reading.operand? : Reading → Expr Unit → Option Reading
  | start, e => some (done e)
  | done callee, e => some (done (.call () callee e))
  | negation, e => some (done (.not () e))
  | operation op left, e => some (done (.binary () op left e))
  | parameter, _ | arrow _, _ | binder _, _ | equals _ _, _ => none

inductive Frame where
  | bracket (outer : Reading)
  | func (parameter : Text)
  | test
  | yes (test : Expr Unit)
  | no (test yes : Expr Unit)
  | value (name : Text) (recursive : Bool)
  | body (name : Text) (recursive : Bool) (value : Expr Unit)

/-- Ends every `fun`, `if` and `let` that the expression is the last part of. -/
def settle (e : Expr Unit) : List Frame → Expr Unit × List Frame
  | .func parameter :: frames => settle (.func () parameter e) frames
  | .no test yes :: frames => settle (.cond () test yes e) frames
  | .body name recursive value :: frames => settle (.letIn () name recursive value e) frames
  | frames => (e, frames)

def Frame.next? : Frame → Mark → Expr Unit → Option Frame
  | test, .yes, e => some (yes e)
  | yes t, .no, e => some (no t e)
  | value name recursive, .inside, e => some (body name recursive e)
  | _, _, _ => none

structure Reader where
  reading : Reading
  frames : List Frame

namespace Reader

def operand? (r : Reader) (e : Expr Unit) : Option Reader :=
  (r.reading.operand? e).map fun reading => ⟨reading, r.frames⟩

def ended? : Reader → Option (Expr Unit × List Frame)
  | ⟨.done e, frames⟩ => some (settle e frames)
  | _ => none

def part? (r : Reader) (m : Mark) : Option Reader :=
  match r.ended? with
  | some (e, frame :: frames) => (frame.next? m e).map fun next => ⟨.start, next :: frames⟩
  | _ => none

def mark? : Reader → Mark → Option Reader
  | ⟨.start, frames⟩, .func => some ⟨.parameter, frames⟩
  | ⟨.arrow parameter, frames⟩, .arrow => some ⟨.start, .func parameter :: frames⟩
  | ⟨.start, frames⟩, .not => some ⟨.negation, frames⟩
  | ⟨.start, frames⟩, .cond => some ⟨.start, .test :: frames⟩
  | ⟨.start, frames⟩, .letIn => some ⟨.binder false, frames⟩
  | ⟨.binder false, frames⟩, .recursive => some ⟨.binder true, frames⟩
  -- The sign binds after the name of a `let` and compares after an operand.
  | ⟨.equals recursive name, frames⟩, .symbol .equal =>
      some ⟨.start, .value name recursive :: frames⟩
  | ⟨.done left, frames⟩, .symbol op => some ⟨.operation op left, frames⟩
  | r, .literal value => r.operand? (.bool () value)
  | r, m => r.part? m

def name? : Reader → Text → Option Reader
  | ⟨.parameter, frames⟩, x => some ⟨.arrow x, frames⟩
  | ⟨.binder recursive, frames⟩, x => some ⟨.equals recursive x, frames⟩
  | r, x => r.operand? (.ident () x)

def step (r : Reader) : Lexeme → Option Reader
  | .word (.mark m) => r.mark? m
  | .word (.numeral value) => r.operand? (.int () value)
  | .word (.name x) => r.name? x
  | .quoted value => r.operand? (.str () value)
  | .space => some r
  | .opening => some ⟨.start, .bracket r.reading :: r.frames⟩
  | .closing =>
      match r.ended? with
      | some (e, .bracket outer :: frames) => Reader.operand? ⟨outer, frames⟩ e
      | _ => none

def run (r : Reader) (ls : List Lexeme) : Option Reader :=
  ls.foldlM step r

end Reader

def read (ls : List Lexeme) : Option (Expr Unit) :=
  match (Reader.run ⟨.start, []⟩ ls).bind Reader.ended? with
  | some (e, []) => some e
  | _ => none

namespace Reader

variable {r r' : Reader} {next : Reading} {frames rest : List Frame} {e e' : Expr Unit}
  {ls ms : List Lexeme}

@[simp] theorem run_nil : r.run [] = some r := rfl

@[simp] theorem run_cons (l : Lexeme) : r.run (l :: ls) = (r.step l).bind (·.run ls) := rfl

theorem run_append (h : r.run ls = some r') : r.run (ls ++ ms) = r'.run ms := by
  rw [run, List.foldlM_append, ← run, h]
  rfl

@[simp] theorem step_space : r.step .space = some r := rfl

theorem run_part {m : Mark} {frame next : Frame} (h : settle e frames = (e', frame :: rest))
    (follows : frame.next? m e' = some next) :
    run ⟨.done e, frames⟩ (.space :: .word (.mark m) :: .space :: ls) =
      run ⟨.start, next :: rest⟩ ls := by
  have part : part? ⟨.done e, frames⟩ m = some ⟨.start, next :: rest⟩ := by
    simp [part?, ended?, h, follows]
  have marked : mark? ⟨.done e, frames⟩ m = part? ⟨.done e, frames⟩ m := by
    unfold Frame.next? at follows
    split at follows
    · rfl
    · rfl
    · rfl
    · cases follows
  simp [step, marked, part]

theorem run_operator (op : Operator) :
    run ⟨.done e, frames⟩ (.space :: .word (.mark (.symbol op)) :: .space :: ls) =
      run ⟨.operation op e, frames⟩ ls := by
  cases op <;> rfl

theorem run_closing {outer : Reading} (h : settle e frames = (e', .bracket outer :: rest))
    (follows : outer.operand? e' = some next) :
    run ⟨.done e, frames⟩ [.closing] = some ⟨next, rest⟩ := by
  simp [step, ended?, operand?, h, follows]

end Reader

/-- Read anywhere, the expression is what is there once all that may end has ended. What needs no
brackets to be called leaves nothing open. -/
structure Readable {ν : Type} (e : Expr ν) : Prop where
  settles : ∀ frames, ∃ e' rest,
    Reader.run ⟨.start, frames⟩ e.lexemes = some ⟨.done e', rest⟩ ∧
      settle e' rest = settle e.shown frames
  head : e.isHead = true → ∀ frames,
    Reader.run ⟨.start, frames⟩ e.lexemes = some ⟨.done e.shown, frames⟩

namespace Readable

variable {ν : Type} {e : Expr ν} {reading next : Reading} {frames : List Frame}

theorem of_run
    (h : ∀ frames, Reader.run ⟨.start, frames⟩ e.lexemes = some ⟨.done e.shown, frames⟩) :
    Readable e :=
  ⟨fun frames => ⟨e.shown, frames, h frames, rfl⟩, fun _ => h⟩

theorem run_brackets (h : Readable e) (follows : reading.operand? e.shown = some next) :
    Reader.run ⟨reading, frames⟩ (grouped false e.lexemes) = some ⟨next, frames⟩ := by
  obtain ⟨e', rest, runs, settled⟩ := h.settles (.bracket reading :: frames)
  exact (Reader.run_append runs).trans (Reader.run_closing settled follows)

theorem run_operand (h : Readable e) (follows : reading.operand? e.shown = some next) :
    Reader.run ⟨reading, frames⟩ (grouped e.isAtom e.lexemes) = some ⟨next, frames⟩ := by
  cases e with
  | int | bool | str =>
      simp only [Expr.shown] at follows
      simp [Expr.isAtom, grouped, Expr.lexemes, Reader.step, Reader.mark?, Reader.operand?, follows]
  | ident _ name =>
      -- Where a name is bound no operand may follow.
      cases reading with
      | parameter | arrow | binder | equals => cases follows
      | start | done | negation | operation => cases follows; rfl
  | func | not | binary | cond | call | letIn => exact h.run_brackets follows

theorem run_callee (h : Readable e) :
    Reader.run ⟨.start, frames⟩ (grouped e.isHead e.lexemes) = some ⟨.done e.shown, frames⟩ := by
  cases head : e.isHead with
  | true => exact h.head head frames
  | false => exact h.run_brackets rfl

theorem run_part (h : Readable e) {m : Mark} {frame next : Frame} {ls : List Lexeme}
    (stops : settle e.shown (frame :: frames) = (e.shown, frame :: frames))
    (follows : frame.next? m e.shown = some next) :
    Reader.run ⟨.start, frame :: frames⟩ (e.lexemes ++ .space :: .word (.mark m) :: .space :: ls) =
      Reader.run ⟨.start, next :: frames⟩ ls := by
  obtain ⟨e', rest, runs, settled⟩ := h.settles (frame :: frames)
  rw [Reader.run_append runs]
  exact Reader.run_part (settled.trans stops) follows

end Readable

theorem readable {ν : Type} (e : Expr ν) : Readable e := by
  induction e with
  | int | bool | str | ident => exact .of_run fun _ => rfl
  | func _ parameter body ih =>
      refine ⟨fun frames => ?_, fun head => absurd head Bool.false_ne_true⟩
      exact ih.settles (.func parameter :: frames)
  | not _ operand ih =>
      refine .of_run fun frames => ?_
      have follows : Reading.negation.operand? operand.shown =
          some (.done (.not () operand.shown)) := rfl
      exact ih.run_operand follows
  | binary _ op left right ihl ihr =>
      refine .of_run fun frames => ?_
      rw [Expr.lexemes, Reader.run_append (ihl.run_operand rfl), Reader.run_operator]
      exact ihr.run_operand rfl
  | cond note test yes no iht ihy ihn =>
      refine ⟨fun frames => ?_, fun head => absurd head Bool.false_ne_true⟩
      have begins : Reader.run ⟨.start, frames⟩ (Expr.cond note test yes no).lexemes =
          Reader.run ⟨.start, .no test.shown yes.shown :: frames⟩ no.lexemes :=
        (iht.run_part rfl rfl).trans (ihy.run_part rfl rfl)
      rw [begins]
      exact ihn.settles (.no test.shown yes.shown :: frames)
  | call _ callee argument ihc iha =>
      refine .of_run fun frames => ?_
      rw [Expr.lexemes, Reader.run_append ihc.run_callee]
      have follows : (Reading.done callee.shown).operand? argument.shown =
          some (.done (.call () callee.shown argument.shown)) := rfl
      exact iha.run_operand follows
  | letIn note name recursive value body ihv ihb =>
      refine ⟨fun frames => ?_, fun head => absurd head Bool.false_ne_true⟩
      have begins : Reader.run ⟨.start, frames⟩
          (Expr.letIn note name recursive value body).lexemes =
          Reader.run ⟨.start, .body name recursive value.shown :: frames⟩ body.lexemes := by
        cases recursive with
        | false => exact ihv.run_part rfl rfl
        | true => exact ihv.run_part rfl rfl
      rw [begins]
      exact ihb.settles (.body name recursive value.shown :: frames)

theorem read_lexemes {ν : Type} (e : Expr ν) : read e.lexemes = some e.shown := by
  obtain ⟨e', rest, runs, settled⟩ := (readable e).settles []
  simp [read, runs, Reader.ended?, settled, settle]

end Source

namespace Expr

variable {ν μ : Type}

open Source

@[simp] theorem isAtom_shown (e : Expr ν) : e.shown.isAtom = e.isAtom := by
  cases e <;> rfl

@[simp] theorem isHead_shown (e : Expr ν) : e.shown.isHead = e.isHead := by
  cases e <;> rfl

theorem source_shown (e : Expr ν) : e.shown.source = e.source := by
  induction e with
  | int | bool | ident => rfl
  | str _ value => simp [shown, source, Json.quote_joined]
  | func _ parameter body ih => simp [shown, source, ih]
  | not _ operand ih => simp [shown, source, ih]
  | binary _ op left right ihl ihr => simp [shown, source, ihl, ihr]
  | cond _ test yes no iht ihy ihn => simp [shown, source, iht, ihy, ihn]
  | call _ callee argument ihc iha => simp [shown, source, ihc, iha]
  | letIn _ name recursive value body ihv ihb => simp [shown, source, ihv, ihb]

theorem shown_eq_bare {e : Expr ν} (whole : ∀ s ∈ e.strings, s.joined = s) : e.shown = e.bare := by
  induction e with
  | int | bool | ident => rfl
  | str _ value => exact congrArg (str ()) (whole value List.mem_cons_self)
  | func _ _ _ ih | not _ _ ih => simp_all [shown, bare, map, strings]
  | binary _ _ _ _ ihl ihr | call _ _ _ ihl ihr | letIn _ _ _ _ _ ihl ihr =>
      simp_all [shown, bare, map, strings]
  | cond _ _ _ _ iht ihy ihn => simp_all [shown, bare, map, strings]

/-- Where names are names, expressions have one text if and only if they differ in their notes only,
and in pairs whose two halves stand apart in a literal. -/
theorem source_determines {e : Expr ν} {f : Expr μ} (he : ∀ x ∈ e.names, isName x = true)
    (hf : ∀ x ∈ f.names, isName x = true) {text : Text} (written : e.source = .ok text) :
    (f.source = .ok text ↔ e.shown = f.shown) ∧
      ((∀ s ∈ e.strings ++ f.strings, s.joined = s) → (f.source = .ok text ↔ e.bare = f.bare)) := by
  have alike : f.source = .ok text ↔ e.shown = f.shown := by
    constructor
    · intro written'
      rw [source_eq, Text.limited_eq_ok] at written written'
      have spelled : spell e.lexemes = spell f.lexemes := written.2.trans written'.2.symm
      have lexemes := (spelled_lexemes he).spell_injective (spelled_lexemes hf) spelled
      have read : some e.shown = some f.shown := by
        rw [← read_lexemes, ← read_lexemes, lexemes]
      exact Option.some.inj read
    · intro same
      rw [← source_shown, ← same, source_shown, written]
  refine ⟨alike, fun whole => ?_⟩
  obtain ⟨first, second⟩ := List.forall_mem_append.1 whole
  rw [alike, shown_eq_bare first, shown_eq_bare second]

theorem source_determines_nested :
    let place : Location := ⟨.number 1, .number 1, 0, none⟩
    let e : Program := .letIn (some place) "f'" true
      (.func none "_x" (.cond none (.binary none .equal (.ident none "_x") (.int none (-1)))
        (.str (some place) "in (") (.not none (.bool none true))))
      (.call none (.call none (.ident none "f'") (.int none (-1))) (.ident (some place) "é"))
    let f : Program := e.map fun _ => none
    let text : Text := "let rec f' = fun _x -> if _x = -1 then \"in (\" else not true in f' -1 é"
    (∀ x ∈ e.names, isName x = true) ∧ (∀ x ∈ f.names, isName x = true) ∧ e ≠ f ∧
      e.source = .ok text ∧ (∀ s ∈ e.strings ++ f.strings, s.joined = s) ∧
      (f.source = .ok text ↔ e.shown = f.shown) ∧ (f.source = .ok text ↔ e.bare = f.bare) := by
  intro place e f text
  have named : ∀ x ∈ e.names, isName x = true := List.all_eq_true.1 (by decide)
  have named' : ∀ x ∈ f.names, isName x = true := List.all_eq_true.1 (by decide)
  have written : e.source = .ok text := by cbv
  have whole : ∀ s ∈ e.strings ++ f.strings, s.joined = s := by decide
  obtain ⟨alike, equal⟩ := source_determines named named' written
  exact ⟨named, named', by decide, written, whole, alike, equal whole⟩

/-- A pair in two halves has the text of the character that it makes. -/
theorem source_of_halves :
    let e : Program := .str none [.high 0x3D, .low 0x200]
    let f : Program := .str none "😀"
    e.names = [] ∧ f.names = [] ∧ e.source = .ok "\"\\ud83d\\ude00\"" ∧ f.source = e.source ∧
      e.bare ≠ f.bare := by
  decide

end Expr

end HindleyMilner
