import Mathlib.Data.List.DropRight

/-!
# Configuration files

Text with one option `name = value` on a line, with comments behind `#` and blanks around names and
values left out.

`parseConfig_showConfig` : options with plain names and values are read back.
-/

namespace ConfigFile

/-- A blank. -/
def isBlank (c : Char) : Bool := c == ' ' || c == '\t' || c == '\r' || c == '\n'

/-- Leave out blanks at both ends. -/
def trim (text : List Char) : List Char := (text.dropWhile isBlank).rdropWhile isBlank

/-- One line: its option, nothing on an empty line, and `none` where it is neither. -/
def parseLine (line : List Char) : Option (List (List Char × List Char)) :=
  let text := trim (line.takeWhile (· != '#'))
  if text = [] then some []
  else
    match text.dropWhile (· != '=') with
    | _ :: value => some [(trim (text.takeWhile (· != '=')), trim value)]
    | [] => none

/-- The options of a text, in their order. -/
def parseConfig (text : List Char) : Option (List (List Char × List Char)) :=
  ((text.splitOn '\n').mapM parseLine).map List.flatten

/-- One line for every option. -/
def showConfig (options : List (List Char × List Char)) : List Char :=
  options.flatMap fun (name, value) => name ++ [' ', '=', ' '] ++ value ++ ['\n']

/-- A text that stands for itself on a line. -/
def Plain (text : List Char) : Prop :=
  text ≠ [] ∧ ∀ c ∈ text, isBlank c = false ∧ c ≠ '#' ∧ c ≠ '='

instance (text : List Char) : Decidable (Plain text) :=
  @instDecidableAnd _ _ _ (List.decidableBAll _ text)

theorem Plain.trim_append {text : List Char} (h : Plain text) (front back : List Char)
    (hfront : ∀ c ∈ front, isBlank c = true) (hback : ∀ c ∈ back, isBlank c = true) :
    trim (front ++ text ++ back) = text := by
  obtain ⟨hne, hplain⟩ := h
  have hdrop : (front ++ text ++ back).dropWhile isBlank = text ++ back := by
    rw [List.append_assoc, List.dropWhile_append_of_pos hfront]
    obtain ⟨c, cs, rfl⟩ := List.exists_cons_of_ne_nil hne
    rw [List.cons_append, List.dropWhile_cons_of_neg (by simp [hplain])]
  rw [trim, hdrop, List.rdropWhile, List.reverse_append,
    List.dropWhile_append_of_pos (by simpa using hback)]
  have hrev : text.reverse ≠ [] := by simpa using hne
  obtain ⟨c, cs, hcs⟩ := List.exists_cons_of_ne_nil hrev
  have hc := (hplain c (by rw [← List.mem_reverse, hcs]; exact List.mem_cons_self)).1
  rw [hcs, List.dropWhile_cons_of_neg (by simp [hc]), ← hcs, List.reverse_reverse]

theorem trim_of_plain {front back : List Char} (hfront : Plain front) (hback : Plain back)
    (middle : List Char) : trim (front ++ middle ++ back) = front ++ middle ++ back := by
  obtain ⟨c, cs, rfl⟩ := List.exists_cons_of_ne_nil hfront.1
  have hdrop : ((c :: cs) ++ middle ++ back).dropWhile isBlank = (c :: cs) ++ middle ++ back :=
    List.dropWhile_cons_of_neg (by simp [hfront.2])
  rw [trim, hdrop, List.rdropWhile_eq_self_iff]
  intro hne
  rw [List.getLast_append_of_ne_nil hne hback.1, (hback.2 _ (List.getLast_mem hback.1)).1]
  decide

theorem parseLine_of_plain {name value : List Char} (hname : Plain name) (hvalue : Plain value) :
    parseLine (name ++ [' ', '=', ' '] ++ value) = some [(name, value)] := by
  have hcomment : (name ++ [' ', '=', ' '] ++ value).takeWhile (· != '#') =
      name ++ [' ', '=', ' '] ++ value := by
    rw [List.takeWhile_eq_self_iff]
    simp only [List.mem_append, List.mem_cons, List.not_mem_nil, or_false, bne_iff_ne]
    rintro c ((hc | rfl | rfl | rfl) | hc)
    · exact (hname.2 c hc).2.1
    · decide
    · decide
    · decide
    · exact (hvalue.2 c hc).2.1
  have hsplit : name ++ [' ', '=', ' '] ++ value = (name ++ [' ']) ++ '=' :: ([' '] ++ value) := by
    simp
  have hfront : ∀ c ∈ name ++ [' '], (c != '=') = true := by
    simp only [List.mem_append, List.mem_singleton, bne_iff_ne]
    rintro c (hc | rfl)
    · exact (hname.2 c hc).2.2
    · decide
  have hne : name ++ [' ', '=', ' '] ++ value ≠ [] := by simp
  have htrim := hname.trim_append [] [' '] (by simp) (List.forall_mem_singleton.mpr rfl)
  have htrim' := hvalue.trim_append [' '] [] (List.forall_mem_singleton.mpr rfl) (by simp)
  rw [List.nil_append] at htrim
  rw [List.append_nil] at htrim'
  simp only [parseLine, hcomment, trim_of_plain hname hvalue, if_neg hne]
  rw [hsplit, List.dropWhile_append_of_pos hfront, List.takeWhile_append_of_pos hfront,
    List.dropWhile_cons_of_neg (by decide), List.takeWhile_cons_of_neg (by decide),
    List.append_nil]
  simp only [htrim, htrim']

theorem not_mem_newline {name value : List Char} (hname : Plain name) (hvalue : Plain value) :
    '\n' ∉ name ++ [' ', '=', ' '] ++ value := by
  simp only [List.mem_append, List.mem_cons, List.not_mem_nil, or_false, not_or]
  refine ⟨⟨fun h => ?_, by decide, by decide, by decide⟩, fun h => ?_⟩
  · exact absurd (hname.2 _ h).1 (by decide)
  · exact absurd (hvalue.2 _ h).1 (by decide)

/-- Options with plain names and values are read back. -/
theorem parseConfig_showConfig {options : List (List Char × List Char)}
    (h : ∀ x ∈ options, Plain x.1 ∧ Plain x.2) :
    parseConfig (showConfig options) = some options := by
  have hlines : ∃ lists, ((showConfig options).splitOn '\n').mapM parseLine = some lists ∧
      lists.flatten = options := by
    induction options with
    | nil => exact ⟨[[]], rfl, rfl⟩
    | cons x options ih =>
      obtain ⟨name, value⟩ := x
      rw [List.forall_mem_cons] at h
      obtain ⟨lists, hmap, hflat⟩ := ih h.2
      refine ⟨[(name, value)] :: lists, ?_, by rw [List.flatten_cons, hflat]; rfl⟩
      have hnl := not_mem_newline h.1.1 h.1.2
      rw [showConfig, List.flatMap_cons, List.append_assoc (name ++ _ ++ value),
        List.singleton_append, List.splitOn_append_cons_self_of_not_mem hnl, List.mapM_cons,
        parseLine_of_plain h.1.1 h.1.2]
      rw [showConfig] at hmap
      rw [hmap]
      rfl
  obtain ⟨lists, hmap, hflat⟩ := hlines
  rw [parseConfig, hmap, Option.map_some, hflat]

end ConfigFile
