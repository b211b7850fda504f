import NodeFormula.Graph.Csv

/-!
# Reading tables of comma-separated values

`Csv.read` reads a table by the common rules: records end in a line break, fields are separated by
commas, and a field in quotes may hold commas, line breaks and, doubled, quotes. Outside quotes none of
these characters is part of a field. It undoes the writing of records (`Csv.read_records`), whatever
characters their fields hold, so the table of a graph is read back as one record for each node
(`NodeGraph.read_toCsv`).
-/

namespace NodeFormula

namespace Csv

/-! ### Reading -/

/-- The rest of a field after its opening quote, and what follows its closing quote. -/
def readQuoted : List Char → Option (List Char × List Char)
  | [] => none
  | '"' :: '"' :: rest => (readQuoted rest).map fun p => ('"' :: p.1, p.2)
  | '"' :: rest => some ([], rest)
  | c :: rest => (readQuoted rest).map fun p => (c :: p.1, p.2)

/-- The characters that a field without quotes may hold. -/
def plainChar (c : Char) : Bool := c != ',' && c != '"' && c != '\r' && c != '\n'

/-- A field and what follows it. -/
def readField : List Char → Option (List Char × List Char)
  | '"' :: rest => readQuoted rest
  | cs => some (cs.takeWhile plainChar, cs.dropWhile plainChar)

/-- Reading to the closing quote takes characters off the front, that quote at least. The induction
is on the characters, with two for a doubled quote. -/
theorem length_of_readQuoted {cs s rest : List Char} (h : readQuoted cs = some (s, rest)) :
    rest.length < cs.length := by
  fun_induction readQuoted cs generalizing s with
  | case1 => cases h
  | case2 cs ih =>
    obtain ⟨⟨s', rest'⟩, hread, heq⟩ := Option.map_eq_some_iff.1 h
    cases heq
    exact Nat.lt_succ_of_lt (Nat.lt_succ_of_lt (ih hread))
  | case3 cs =>
    cases h
    exact Nat.lt_succ_self _
  | case4 c cs _ _ ih =>
    obtain ⟨⟨s', rest'⟩, hread, heq⟩ := Option.map_eq_some_iff.1 h
    cases heq
    exact Nat.lt_succ_of_lt (ih hread)

theorem length_of_readField {cs s rest : List Char} (h : readField cs = some (s, rest)) :
    rest.length ≤ cs.length := by
  unfold readField at h
  split at h
  next cs => exact Nat.le_succ_of_le (Nat.le_of_lt (length_of_readQuoted h))
  next =>
    cases h
    exact (List.dropWhile_suffix _).length_le

/-- A record and what follows its line break. The break after the last record may be missing. -/
def readRecord (cs : List Char) : Option (List String × List Char) :=
  match h : readField cs with
  | some (s, ',' :: rest) =>
    have := length_of_readField h
    (readRecord rest).map fun p => (String.ofList s :: p.1, p.2)
  | some (s, '\n' :: rest) => some ([String.ofList s], rest)
  | some (s, '\r' :: '\n' :: rest) => some ([String.ofList s], rest)
  | some (s, []) => some ([String.ofList s], [])
  | _ => none
termination_by cs.length
decreasing_by
  simp only [List.length_cons] at this
  omega

/-- Reading a record takes at least one character off the front, so that reading a table comes to an
end. -/
theorem length_of_readRecord {cs rest : List Char} {fields : List String}
    (h : readRecord cs = some (fields, rest)) : rest.length ≤ cs.length - 1 := by
  fun_induction readRecord cs generalizing fields with
  | case1 cs s rest' hfield hle ih =>
    obtain ⟨⟨fields', rest''⟩, hread, heq⟩ := Option.map_eq_some_iff.1 h
    cases heq
    have := ih hread
    simp only [List.length_cons] at hle
    omega
  | case2 cs s rest' hfield =>
    cases h
    exact Nat.le_sub_one_of_lt (length_of_readField hfield)
  | case3 cs s rest' hfield =>
    cases h
    have := length_of_readField hfield
    simp only [List.length_cons] at this
    omega
  | case4 => cases h; exact Nat.zero_le _
  | case5 => cases h

/-- All records of a table. -/
def read (cs : List Char) : Option (List (List String)) :=
  if _hne : cs = [] then some []
  else match _h : readRecord cs with
    | none => none
    | some (fields, rest) => (read rest).map (fields :: ·)
termination_by cs.length
decreasing_by
  have := length_of_readRecord _h
  have := List.length_pos_iff.2 _hne
  omega

/-! ### Reading what was written -/

/-- A text in which a field has ended. -/
def Ended (cs : List Char) : Prop := ∃ c rest, cs = c :: rest ∧ (c = ',' ∨ c = '\n')

/-- A quote in quotes is doubled. -/
def doubled (s : List Char) : List Char := s.flatMap fun c => if c = '"' then ['"', '"'] else [c]

/-- Reading undoes the doubling of quotes, by induction on the characters. The quote that ends the
field is told from a doubled one by the comma or line break behind it. -/
theorem readQuoted_doubled (s : List Char) {rest : List Char} (hrest : Ended rest) :
    readQuoted (doubled s ++ '"' :: rest) = some (s, rest) := by
  induction s with
  | nil =>
    obtain ⟨c, rest, rfl, rfl | rfl⟩ := hrest <;> rfl
  | cons c s ih =>
    by_cases hc : c = '"'
    · subst hc
      simpa [doubled, readQuoted] using ih
    · have hcons : doubled (c :: s) ++ '"' :: rest = c :: (doubled s ++ '"' :: rest) := by
        simp [doubled, hc]
      rw [hcons, readQuoted, ih]
      · rfl
      · exact fun _ h _ => hc h
      · exact hc

theorem readField_of_head?_ne {cs : List Char} (h : cs.head? ≠ some '"') :
    readField cs = some (cs.takeWhile plainChar, cs.dropWhile plainChar) := by
  unfold readField
  split
  next => exact absurd rfl h
  next => rfl

/-- A field that was written is read back, with quotes around it or without. Quotes are put around
each field with a character that has a meaning, so a field without quotes has none of these. -/
theorem readField_field (s : String) {rest : List Char} (hrest : Ended rest) :
    readField ((field s).toList ++ rest) = some (s.toList, rest) := by
  unfold field
  split
  next =>
    have htext : (String.ofList ('"' :: doubled s.toList ++ ['"'])).toList ++ rest =
        '"' :: (doubled s.toList ++ '"' :: rest) := by simp
    exact (congrArg readField htext).trans (readQuoted_doubled s.toList hrest)
  next hplain =>
    have hchars : ∀ c ∈ s.toList, plainChar c = true := by
      simpa [special, plainChar, and_assoc] using hplain
    obtain ⟨c, rest, rfl, hc⟩ := hrest
    have hhead : (s.toList ++ c :: rest).head? ≠ some '"' := by
      cases hs : s.toList with
      | nil => rcases hc with rfl | rfl <;> simp
      | cons x xs =>
        rintro ⟨⟩
        exact absurd (hchars '"' (hs ▸ .head _)) (by decide)
    have hstop : plainChar c = false := by rcases hc with rfl | rfl <;> rfl
    rw [readField_of_head?_ne hhead, List.takeWhile_append_of_pos hchars,
      List.dropWhile_append_of_pos hchars]
    simp [hstop]

theorem readRecord_of_comma {cs s rest : List Char} (h : readField cs = some (s, ',' :: rest)) :
    readRecord cs = (readRecord rest).map fun p => (String.ofList s :: p.1, p.2) := by
  rw [readRecord]
  split <;> simp_all

theorem readRecord_of_newline {cs s rest : List Char} (h : readField cs = some (s, '\n' :: rest)) :
    readRecord cs = some ([String.ofList s], rest) := by
  rw [readRecord]
  split <;> simp_all

/-- Fields with commas between them and a line break after them are one record. -/
theorem readRecord_fields (s : String) (fields : List String) (rest : List Char) :
    readRecord ([','].intercalate ((s :: fields).map fun s => (field s).toList) ++ '\n' :: rest) =
      some (s :: fields, rest) := by
  induction fields generalizing s with
  | nil =>
    have hended : Ended ('\n' :: rest) := ⟨_, _, rfl, .inr rfl⟩
    simpa using readRecord_of_newline (readField_field s hended)
  | cons t fields ih =>
    rw [List.map_cons, List.map_cons, List.intercalate_cons_cons, List.append_assoc,
      List.append_assoc, List.singleton_append]
    have hmore := ih t
    rw [List.map_cons] at hmore
    rw [readRecord_of_comma (readField_field s ⟨_, _, rfl, .inl rfl⟩), String.ofList_toList, hmore]
    rfl

theorem toList_record (fields : List String) : (record fields).toList =
    [','].intercalate (fields.map fun s => (field s).toList) ++ ['\n'] := by
  rw [record, String.toList_append, String.toList_intercalate, List.map_map]
  rfl

theorem readRecord_record {fields : List String} (hne : fields ≠ []) (rest : List Char) :
    readRecord ((record fields).toList ++ rest) = some (fields, rest) := by
  obtain ⟨s, fields, rfl⟩ := List.exists_cons_of_ne_nil hne
  rw [toList_record, List.append_assoc]
  exact readRecord_fields s fields rest

theorem read_cons {cs rest : List Char} {fields : List String}
    (h : readRecord cs = some (fields, rest)) (hne : cs ≠ []) :
    read cs = (read rest).map (fields :: ·) := by
  rw [read, dif_neg hne]
  split <;> simp_all

/-- Reading undoes writing, whatever characters the fields hold. The induction is on the records,
each of which ends in a line break outside quotes. -/
theorem read_records {rows : List (List String)} (h : ∀ fields ∈ rows, fields ≠ []) :
    read (String.join (rows.map record)).toList = some rows := by
  rw [String.toList_join, List.flatMap_map]
  induction rows with
  | nil =>
    rw [read]
    rfl
  | cons fields rows ih =>
    have hne : (record fields).toList ++ rows.flatMap (fun r => (record r).toList) ≠ [] := by
      simp [toList_record]
    rw [List.flatMap_cons, read_cons (readRecord_record (h fields (.head _)) _) hne,
      ih fun r hr => h r (.tail _ hr)]
    rfl

end Csv

/-- The table of a graph with nodes is read back: the header and one record for each node, tree by tree
and in the order of the nodes. A record holds the name of the tree, the number, key and label of the
node, its place as it was printed, whatever the printer, and how many links of its own tree enter it. -/
theorem NodeGraph.read_toCsv {g : NodeGraph} (print : Float → String)
    (h : ∃ t ∈ g.trees, t.nodes ≠ #[]) :
    Csv.read (g.toCsv print).toList =
      some (["tree", "id", "key", "label", "x", "y", "linked_inputs"] ::
        (g.tree :: g.groups).flatMap fun t => t.nodes.toList.map fun n =>
          [t.name, toString n.id, n.key, n.label.getD "", print n.x, print n.y,
            toString (t.links.toList.countP fun l => l.toNode = n.id)]) := by
  obtain ⟨t, ht, hnodes⟩ := h
  obtain ⟨n, hn⟩ := List.exists_mem_of_ne_nil t.nodes.toList (by simpa using hnodes)
  have hrow : csvFields print t n ∈ g.csvRows print :=
    List.mem_flatMap.2 ⟨t, ht, List.mem_map.2 ⟨n, hn, rfl⟩⟩
  have hrows : (g.csvRows print).isEmpty = false := by
    rw [List.isEmpty_eq_false_iff]
    exact List.ne_nil_of_mem hrow
  have hfields : ∀ fields ∈ csvHeader :: g.csvRows print, fields ≠ [] := by
    intro fields hf
    rcases List.mem_cons.1 hf with rfl | hf
    · simp [csvHeader]
    · obtain ⟨t, -, hf⟩ := List.mem_flatMap.1 hf
      obtain ⟨n, -, rfl⟩ := List.mem_map.1 hf
      simp [csvFields]
  have hcount : ∀ (t : NodeTree) (n : Node), (t.incoming n.id).length =
      t.links.toList.countP fun l => l.toNode = n.id := fun t n => by
    rw [NodeTree.incoming, List.countP_eq_length_filter]
    rfl
  have htext : g.toCsv print = String.join ((csvHeader :: g.csvRows print).map Csv.record) := by
    simp only [toCsv, hrows, Bool.false_eq_true, if_false]
  rw [htext, Csv.read_records hfields]
  unfold csvRows csvFields
  simp only [hcount]
  rfl

/-- A graph whose names hold separators, quotes and line breaks, two trees of which have nodes with the
same numbers. The place of the last node is large in one coordinate and no number in the other. -/
def NodeGraph.awkwardNames : NodeGraph where
  tree :=
    { name := "a,\"b\"", kind := .geometry,
      nodes := #[{ id := 0, key := "\r\n" }, { id := 1, key := "k", label := some "\"" }],
      links := #[⟨0, 0, 1, 0⟩, ⟨0, 0, 1, 1⟩] }
  groups :=
    [{ name := "", kind := .geometry },
      { name := "g\n", kind := .geometry,
        nodes := #[{ id := 1, key := ",", label := some "", x := 200.0, y := -150.0 },
          { id := 2, key := "", x := 1e16, y := 0.0 / 0.0 }] }]

/-- Names with commas, quotes and line breaks, and coordinates that are large and that are no
numbers. The table is read back as one record for each node under that of the columns. -/
theorem NodeGraph.read_toCsv_awkwardNames :
    (∃ t ∈ awkwardNames.trees, t.nodes ≠ #[]) ∧
    Csv.read awkwardNames.toCsv.toList =
      some [["tree", "id", "key", "label", "x", "y", "linked_inputs"],
        ["a,\"b\"", "0", "\r\n", "", "0.0", "0.0", "0"], ["a,\"b\"", "1", "k", "\"", "0.0", "0.0", "2"],
        ["g\n", "1", ",", "", "200.0", "-150.0", "0"], ["g\n", "2", "", "", "1e16", "NaN", "0"]] := by
  have hnodes : ∃ t ∈ awkwardNames.trees, t.nodes ≠ #[] :=
    ⟨awkwardNames.tree, .head _, by decide⟩
  exact ⟨hnodes, (read_toCsv Csv.floatStyle.write hnodes).trans (congrArg some (by decide +kernel))⟩

end NodeFormula
