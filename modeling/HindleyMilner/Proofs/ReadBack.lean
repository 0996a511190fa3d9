import HindleyMilner.Proofs.WrittenTokens

/-!
Written values are read back, in every layout. Reading the text of a value takes the machine from a
place where a value may start to the place after it, with the same frames open and the same room
left; what stands after the text is left over. The proof follows the writer. It needs keys that
differ, texts without halves that make a pair, numerals within the limit, and as much room as the
value is deep.
-/

namespace HindleyMilner.Json

mutual

def depth : Json → Nat
  | null | bool _ | int _ | real _ | str _ => 0
  | arr items => depthItems items + 1
  | obj fields => depthFields fields + 1

def depthItems : List Json → Nat
  | [] => 0
  | item :: items => max item.depth (depthItems items)

def depthFields : List (Text × Json) → Nat
  | [] => 0
  | (_, value) :: fields => max value.depth (depthFields fields)

end

def Short (digits : Nat) (n : Int) : Prop :=
  Text.digitCount n ≤ digits

mutual

/-- Whole numbers have at most `digits` digits, other numbers do not occur, in no text two halves
make a pair, and no object repeats a key. -/
def Legible (digits : Nat) : Json → Prop
  | null | bool _ => True
  | str value => value.joined = value
  | int value => Short digits value
  | real _ => False
  | arr items => LegibleItems digits items
  | obj fields => (fields.map Prod.fst).Nodup ∧ LegibleFields digits fields

def LegibleItems (digits : Nat) : List Json → Prop
  | [] => True
  | item :: items => item.Legible digits ∧ LegibleItems digits items

def LegibleFields (digits : Nat) : List (Text × Json) → Prop
  | [] => True
  | (key, value) :: fields =>
      key.joined = key ∧ value.Legible digits ∧ LegibleFields digits fields

end

theorem putAll_of_nodup {done fields : List (Text × Json)}
    (distinct : ((done ++ fields).map Prod.fst).Nodup) : putAll done fields = done ++ fields := by
  induction fields generalizing done with
  | nil => exact (List.append_nil done).symm
  | cons field fields ih =>
      have new : field.1 ∉ done.map Prod.fst := by
        intro old
        rw [List.map_append, List.nodup_append] at distinct
        exact distinct.2.2 field.1 old field.1 (by simp) rfl
      have added : putAll done (field :: fields) = putAll (done ++ [field]) fields := by
        rw [putAll, List.foldl_cons, put_of_not_mem new, putAll]
      rw [added, ih (by simpa using distinct), List.append_assoc, List.singleton_append]

theorem ofFields_of_nodup {fields : List (Text × Json)} (distinct : (fields.map Prod.fst).Nodup) :
    ofFields fields = obj fields := by
  have added : putAll [] fields = fields := putAll_of_nodup (by rwa [List.nil_append])
  rw [ofFields, added]

section

variable {limits : Limits} {m m' m'' : Machine} {front text rest ws : Text}

/-- Reading `text` goes on as reading `rest` from the second machine. Where the text stands matters
for complaints only. -/
def Leads (limits : Limits) (m : Machine) (text : Text) (m' : Machine) (rest : Text) : Prop :=
  ∀ offset, ∃ offset', Machine.run limits m offset text = Machine.run limits m' offset' rest

theorem Leads.trans (h : Leads limits m front m' text) (h' : Leads limits m' text m'' rest) :
    Leads limits m front m'' rest := by
  intro offset
  obtain ⟨middle, first⟩ := h offset
  obtain ⟨last, second⟩ := h' middle
  exact ⟨last, first.trans second⟩

theorem leads_token {token : Token} (scans : Scans text token rest)
    (steps : ∀ offset, m.step limits offset token = .ok m') :
    Leads limits m (text ++ rest) m' rest := by
  intro offset
  obtain ⟨p, tail, rfl, solid, scanned⟩ := scans
  refine ⟨offset + 1 + tail.length, ?_⟩
  rw [List.cons_append, Machine.run]
  simp [solid, scanned, steps]

theorem leads_space (space : ∀ p ∈ ws, isSpace p = true) : Leads limits m (ws ++ rest) m rest := by
  induction ws with
  | nil => exact fun offset => ⟨offset, rfl⟩
  | cons p ws ih =>
      intro offset
      obtain ⟨last, same⟩ := ih (fun q hq => space q (List.mem_cons_of_mem p hq)) (offset + 1)
      refine ⟨last, ?_⟩
      rw [List.cons_append, Machine.run, if_pos (space p List.mem_cons_self), same]

inductive Starts (room : Nat) : List Frame → Machine → Prop
  | value (frames : List Frame) : Starts room frames ⟨room, .value frames⟩
  | firstItem (frames : List Frame) : Starts room (.item [] :: frames) ⟨room, .firstItem frames⟩

theorem Starts.step {room offset : Nat} {frames : List Frame} {token : Token}
    (starts : Starts room frames m)
    (begins : Machine.begin limits room frames offset token = .ok m') :
    m.step limits offset token = .ok m' := by
  cases starts with
  | value => exact begins
  | firstItem =>
      cases token with
      | closeArray => cases begins
      | openArray | openObject | closeObject | comma | colon | scalar | integer | text | flawed
      | stray => exact begins

theorem leads_begin {room : Nat} {frames : List Frame} {token : Token}
    (scans : Scans text token rest) (starts : Starts room frames m)
    (begins : ∀ offset, Machine.begin limits room frames offset token = .ok m') :
    Leads limits m (text ++ rest) m' rest :=
  leads_token scans fun offset => starts.step (begins offset)

theorem leads_openArray {room : Nat} {frames : List Frame} (starts : Starts room frames m)
    (fits : 0 < room) : Leads limits m ("[" ++ rest) ⟨room - 1, .firstItem frames⟩ rest :=
  leads_begin ⟨_, _, rfl, rfl, rfl⟩ starts fun _ => if_neg (Nat.ne_of_gt fits)

theorem leads_openObject {room : Nat} {frames : List Frame} (starts : Starts room frames m)
    (fits : 0 < room) : Leads limits m ("\x7b" ++ rest) ⟨room - 1, .firstKey frames⟩ rest :=
  leads_begin ⟨_, _, rfl, rfl, rfl⟩ starts fun _ => if_neg (Nat.ne_of_gt fits)

theorem Layout.gap_space (layout : Layout) (level : Nat) :
    ∀ p ∈ layout.gap level, isSpace p = true := by
  cases layout with
  | compact => exact List.forall_mem_nil _
  | lines indent =>
      intro p hp
      rcases List.mem_append.1 hp with first | blank
      · rw [List.mem_singleton.1 first]
        rfl
      · rw [List.eq_of_mem_replicate blank]
        rfl

theorem Layout.separator_eq_cons (layout : Layout) (level : Nat) :
    ∃ ws, layout.separator level = .char ',' :: ws ∧ ∀ p ∈ ws, isSpace p = true := by
  cases layout with
  | compact => exact ⟨[.char ' '], rfl, List.forall_mem_singleton.2 rfl⟩
  | lines indent => exact ⟨(lines indent).gap level, rfl, gap_space _ level⟩

theorem ends_cons {p : Point} (h : isSpace p = true ∨ p ∈ (",]\x7d" : Text)) :
    Ends (p :: rest) := by
  have one : p ∈ (" \t\n\r,]\x7d" : Text) := by
    simpa [isSpace, Text.ofString, Text.ofChars, or_assoc] using h
  have each : ∀ q ∈ (" \t\n\r,]\x7d" : Text), isDigit q = false ∧ q ≠ '.' ∧ q ≠ 'e' ∧ q ≠ 'E' := by
    decide
  intro q hq
  cases hq
  exact each p one

theorem ends_close (space : ∀ p ∈ ws, isSpace p = true) {bracket : Point}
    (closes : bracket ∈ (",]\x7d" : Text)) : Ends (ws ++ bracket :: rest) := by
  cases ws with
  | nil => exact ends_cons (.inr closes)
  | cons p ws => exact ends_cons (.inl (space p List.mem_cons_self))

theorem ends_items (layout : Layout) (level : Nat) (items : List Json)
    (space : ∀ p ∈ ws, isSpace p = true) (rest : Text) :
    Ends (writeItems layout level items ++ (ws ++ .char ']' :: rest)) := by
  cases items with
  | nil => exact ends_close space (by decide)
  | cons item items =>
      obtain ⟨blanks, separator, -⟩ := layout.separator_eq_cons level
      simp only [writeItems, separator, List.cons_append]
      exact ends_cons (.inr (by decide))

theorem ends_fields (layout : Layout) (level : Nat) (fields : List (Text × Json))
    (space : ∀ p ∈ ws, isSpace p = true) (rest : Text) :
    Ends (writeFields layout level fields ++ (ws ++ .char '\x7d' :: rest)) := by
  cases fields with
  | nil => exact ends_close space (by decide)
  | cons field fields =>
      obtain ⟨blanks, separator, -⟩ := layout.separator_eq_cons level
      simp only [writeFields, separator, List.cons_append]
      exact ends_cons (.inr (by decide))

theorem leads_separator (layout : Layout) (level : Nat)
    (steps : ∀ offset, m.step limits offset .comma = .ok m') :
    Leads limits m (layout.separator level ++ rest) m' rest := by
  obtain ⟨blanks, separator, space⟩ := layout.separator_eq_cons level
  have comma : Leads limits m ("," ++ (blanks ++ rest)) m' (blanks ++ rest) :=
    leads_token ⟨_, _, rfl, rfl, rfl⟩ steps
  rw [separator]
  exact comma.trans (leads_space space)

theorem leads_key {room : Nat} {done : List (Text × Json)} {frames : List Frame} {key : Text}
    (whole : key.joined = key)
    (steps : ∀ offset, m.step limits offset (.text key) = .ok ⟨room, .colon done key frames⟩) :
    Leads limits m (quote key ++ (": " ++ rest)) ⟨room, .value (.field done key :: frames)⟩
      rest := by
  have colon : Leads limits ⟨room, .colon done key frames⟩ (":" ++ (" " ++ rest))
      ⟨room, .value (.field done key :: frames)⟩ (" " ++ rest) :=
    leads_token ⟨_, _, rfl, rfl, rfl⟩ fun _ => rfl
  have scanned := scans_quote key (": " ++ rest)
  rw [whole] at scanned
  exact ((leads_token scanned steps).trans colon).trans
    (leads_space (List.forall_mem_singleton.2 rfl))

end

section

variable {limits : Limits} (layout : Layout)

mutual

theorem leads_write (v : Json) (level room : Nat) {frames : List Frame} {m : Machine}
    {rest : Text} (legible : v.Legible limits.digits) (fits : v.depth ≤ room)
    (starts : Starts room frames m) (ends : Ends rest) :
    Leads limits m (write layout level v ++ rest) ⟨room, .after v frames⟩ rest := by
  match v with
  | null =>
      rw [write]
      exact leads_begin (scans_null rest) starts fun _ => rfl
  | bool value =>
      rw [write]
      exact leads_begin (scans_bool value rest) starts fun _ => rfl
  | int value =>
      rw [write]
      refine leads_begin (scans_int value ends) starts fun offset => ?_
      have signed : (if decide (value < 0) = true then -(value.natAbs : Int) else value.natAbs) =
          value := by
        by_cases sign : value < 0
        · rw [if_pos (decide_eq_true sign)]
          omega
        · rw [if_neg fun negative => sign (of_decide_eq_true negative)]
          omega
      have short : ¬limits.digits < (decimal value.natAbs).length := by
        rw [decimal, Text.ofChars, List.length_map]
        exact Nat.not_lt.2 legible
      rw [Machine.begin, if_neg short, naturalOf_decimal]
      simp only [signed]
  | real value => exact legible.elim
  | str value =>
      have scanned := scans_quote value rest
      rw [legible] at scanned
      rw [write]
      exact leads_begin scanned starts fun _ => rfl
  | arr [] =>
      have pos : 0 < room := fits
      have closes : Leads limits ⟨room - 1, .firstItem frames⟩ ("]" ++ rest)
          ⟨room - 1 + 1, .after (.arr []) frames⟩ rest :=
        leads_token ⟨_, _, rfl, rfl, rfl⟩ fun _ => rfl
      rw [Nat.sub_add_cancel pos] at closes
      rw [write]
      exact (leads_openArray starts pos).trans closes
  | arr (item :: items) =>
      rw [depth, depthItems] at fits
      have space := layout.gap_space level
      have first := leads_write item (level + 1) (room - 1) legible.1 (by omega)
        (.firstItem frames) (ends_items layout (level + 1) items space rest)
      have others := leads_items items (level + 1) (room - 1) frames item [] rest legible.2
        (by omega) space
      -- The room that the bracket takes is given back where it closes.
      rw [Nat.sub_add_cancel (by omega)] at others
      simp only [write, List.append_assoc]
      exact ((leads_openArray starts (by omega)).trans
        (leads_space (layout.gap_space (level + 1)))).trans (first.trans others)
  | obj [] =>
      have pos : 0 < room := fits
      have closes : Leads limits ⟨room - 1, .firstKey frames⟩ ("\x7d" ++ rest)
          ⟨room - 1 + 1, .after (.obj []) frames⟩ rest :=
        leads_token ⟨_, _, rfl, rfl, rfl⟩ fun _ => rfl
      rw [Nat.sub_add_cancel pos] at closes
      rw [write]
      exact (leads_openObject starts pos).trans closes
  | obj ((key, value) :: fields) =>
      rw [depth, depthFields] at fits
      have space := layout.gap_space level
      have first := leads_write value (level + 1) (room - 1) legible.2.2.1 (by omega)
        (.value (.field [] key :: frames)) (ends_fields layout (level + 1) fields space rest)
      have others := leads_fields fields (level + 1) (room - 1) frames key value [] rest
        legible.2.2.2 (by omega) space
      rw [Nat.sub_add_cancel (by omega)] at others
      -- The machine puts the fields in one by one, which changes nothing if the keys differ.
      have kept : ofFields ([(key, value)].reverse ++ fields) = .obj ((key, value) :: fields) :=
        ofFields_of_nodup legible.1
      rw [kept] at others
      simp only [write, List.append_assoc]
      exact ((leads_openObject starts (by omega)).trans
        (leads_space (layout.gap_space (level + 1)))).trans
          (((leads_key legible.2.1 fun _ => rfl).trans first).trans others)

theorem leads_items (items : List Json) (level room : Nat) (frames : List Frame) (v : Json)
    (done : List Json) (rest : Text) {ws : Text}
    (legible : LegibleItems limits.digits items) (fits : depthItems items ≤ room)
    (space : ∀ p ∈ ws, isSpace p = true) :
    Leads limits ⟨room, .after v (.item done :: frames)⟩
      (writeItems layout level items ++ (ws ++ .char ']' :: rest))
      ⟨room + 1, .after (.arr ((v :: done).reverse ++ items)) frames⟩ rest := by
  match items with
  | [] =>
      have closes : Leads limits ⟨room, .after v (.item done :: frames)⟩ ("]" ++ rest)
          ⟨room + 1, .after (.arr (v :: done).reverse) frames⟩ rest :=
        leads_token ⟨_, _, rfl, rfl, rfl⟩ fun _ => rfl
      rw [writeItems, List.append_nil]
      exact (leads_space space).trans closes
  | item :: items =>
      rw [depthItems] at fits
      have first := leads_write item level room legible.1 (by omega)
        (.value (.item (v :: done) :: frames)) (ends_items layout level items space rest)
      have others := leads_items items level room frames item (v :: done) rest legible.2 (by omega)
        space
      rw [List.reverse_cons, List.append_assoc] at others
      simp only [writeItems, List.append_assoc]
      exact ((leads_separator layout level fun _ => rfl).trans first).trans others

theorem leads_fields (fields : List (Text × Json)) (level room : Nat) (frames : List Frame)
    (key : Text) (v : Json) (done : List (Text × Json)) (rest : Text) {ws : Text}
    (legible : LegibleFields limits.digits fields) (fits : depthFields fields ≤ room)
    (space : ∀ p ∈ ws, isSpace p = true) :
    Leads limits ⟨room, .after v (.field done key :: frames)⟩
      (writeFields layout level fields ++ (ws ++ .char '\x7d' :: rest))
      ⟨room + 1, .after (ofFields (((key, v) :: done).reverse ++ fields)) frames⟩ rest := by
  match fields with
  | [] =>
      have closes : Leads limits ⟨room, .after v (.field done key :: frames)⟩ ("\x7d" ++ rest)
          ⟨room + 1, .after (ofFields ((key, v) :: done).reverse) frames⟩ rest :=
        leads_token ⟨_, _, rfl, rfl, rfl⟩ fun _ => rfl
      rw [writeFields, List.append_nil]
      exact (leads_space space).trans closes
  | (next, value) :: fields =>
      rw [depthFields] at fits
      have first := leads_write value level room legible.2.1 (by omega)
        (.value (.field ((key, v) :: done) next :: frames))
        (ends_fields layout level fields space rest)
      have others := leads_fields fields level room frames next value ((key, v) :: done) rest
        legible.2.2 (by omega) space
      rw [List.reverse_cons, List.append_assoc] at others
      simp only [writeFields, List.append_assoc]
      refine (leads_separator layout level fun _ => rfl).trans ?_
      exact (leads_key legible.1 fun _ => rfl).trans (first.trans others)

end

theorem head?_toString (n : Int) :
    (toString n : Text).head? ≠ some (.char (Char.ofNat 0xFEFF)) := by
  rw [ofString_toString]
  by_cases sign : n < 0
  · simp [sign]
  · intro mark
    rw [if_neg sign, List.nil_append] at mark
    have digit := isDigit_of_mem_decimal (List.mem_of_head? mark)
    revert digit
    decide

theorem head?_write (v : Json) (legible : v.Legible limits.digits) (level : Nat) :
    (write layout level v).head? ≠ some (.char (Char.ofNat 0xFEFF)) := by
  match v with
  | null => simp [write, Text.ofString, Text.ofChars]
  | bool value => cases value <;> simp [write, Text.ofString, Text.ofChars]
  | int value => exact head?_toString value
  | real value => exact legible.elim
  | str value => simp [write, quote]
  | arr [] | arr (item :: items) => simp [write, Text.ofString, Text.ofChars]
  | obj [] | obj ((key, value) :: fields) => simp [write, Text.ofString, Text.ofChars]

theorem read_write (v : Json) (legible : v.Legible limits.digits) (fits : v.depth ≤ limits.depth) :
    read limits (write layout 0 v) = .ok v := by
  have leads := leads_write layout v 0 limits.depth legible fits (.value [])
    (show Ends [] from nofun)
  obtain ⟨last, same⟩ := leads 0
  rw [List.append_nil, Machine.run] at same
  rw [read, if_neg (head?_write layout v legible 0), same]

end

mutual

theorem short_of_legible {digits : Nat} (v : Json) (legible : v.Legible digits) :
    ∀ n ∈ v.integers, Short digits n := by
  match v with
  | null | bool _ | real _ | str _ => exact List.forall_mem_nil _
  | int value => exact List.forall_mem_singleton.2 legible
  | arr items => exact short_of_legibleItems items legible
  | obj fields => exact short_of_legibleFields fields legible.2

theorem short_of_legibleItems {digits : Nat} (items : List Json)
    (legible : LegibleItems digits items) : ∀ n ∈ integersOfItems items, Short digits n := by
  match items with
  | [] => exact List.forall_mem_nil _
  | item :: items =>
      exact List.forall_mem_append.2
        ⟨short_of_legible item legible.1, short_of_legibleItems items legible.2⟩

theorem short_of_legibleFields {digits : Nat} (fields : List (Text × Json))
    (legible : LegibleFields digits fields) : ∀ n ∈ integersOfFields fields, Short digits n := by
  match fields with
  | [] => exact List.forall_mem_nil _
  | (_, value) :: fields =>
      exact List.forall_mem_append.2
        ⟨short_of_legible value legible.2.1, short_of_legibleFields fields legible.2.2⟩

end

theorem read_render (layout : Layout) (v : Json) {depth : Nat}
    (legible : v.Legible Text.digitLimit) (fits : v.depth ≤ depth) :
    ∃ text, render layout v = .ok text ∧ read { depth } text = .ok v := by
  have written : render layout v = .ok (write layout 0 v) := if_pos (short_of_legible v legible)
  exact ⟨_, written, read_write layout v legible fits⟩

end HindleyMilner.Json
