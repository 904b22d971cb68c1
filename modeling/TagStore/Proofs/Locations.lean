import Mathlib.Algebra.Ring.Parity
import Mathlib.Data.List.DropRight
import TagStore.Proofs.KeyParts
import TagStore.Store.Location

namespace TagStore

namespace Text

theorem head?_trimStart {cs : List Char} {c : Char} (h : (trimStart cs).head? = some c) :
    isBlank c = false := by
  have hdrop := List.head?_dropWhile_not isBlank cs
  rw [trimStart] at h
  simpa [h] using hdrop

theorem trimStart_eq_self {cs : List Char} (h : ∀ c ∈ cs.head?, isBlank c = false) :
    trimStart cs = cs := by
  cases cs with
  | nil => rfl
  | cons c cs => exact List.dropWhile_cons_of_neg (by simp [h c rfl])

theorem trimEnd_eq_self {cs : List Char} (h : ∀ c ∈ cs.getLast?, isBlank c = false) :
    trimEnd cs = cs :=
  List.rdropWhile_eq_self_iff.mpr fun hne => by simp [h _ (List.getLast?_eq_some_getLast hne)]

/-- Neither end is blank. -/
structure Trimmed (cs : List Char) : Prop where
  front : ∀ c ∈ cs.head?, isBlank c = false
  back : ∀ c ∈ cs.getLast?, isBlank c = false

theorem Trimmed.trim {s : String} (h : Trimmed s.toList) : Text.trim s = s := by
  rw [Text.trim, trimStart_eq_self h.front, trimEnd_eq_self h.back, String.ofList_toList]

theorem trimmed_trim (s : String) : Trimmed (Text.trim s).toList := by
  rw [Text.trim, String.toList_ofList]
  constructor
  · intro c hc
    obtain ⟨back, hback⟩ := List.rdropWhile_prefix isBlank (trimStart s.toList)
    have hhead : (trimStart s.toList).head? = some c := by
      rw [← hback, List.head?_append]
      exact Option.or_eq_some_iff.mpr (.inl hc)
    exact head?_trimStart hhead
  · intro c hc
    obtain ⟨hne, rfl⟩ := List.mem_getLast?_eq_getLast hc
    exact Bool.eq_false_iff.mpr (List.rdropWhile_last_not isBlank (trimStart s.toList) hne)

/-- Of a text that ends in no blank, trimming takes off the blanks in front. -/
theorem trim_ofList {cs : List Char} (h : ∀ c ∈ cs.getLast?, isBlank c = false) :
    Text.trim (String.ofList cs) = String.ofList (trimStart cs) := by
  rw [Text.trim, String.toList_ofList, trimEnd_eq_self]
  intro c hc
  obtain ⟨front, hfront⟩ := List.dropWhile_suffix isBlank (l := cs)
  refine h c ?_
  rw [← hfront, List.getLast?_append]
  exact Option.or_eq_some_iff.mpr (.inl hc)

theorem dropStem?_append (stem cs : List Char) : dropStem? stem (stem ++ cs) = some cs := by
  induction stem with
  | nil => rfl
  | cons c stem ih => simpa [dropStem?] using ih

theorem splitAll_cons_self (d : Char) (cs : List Char) :
    splitAll d (d :: cs) = [] :: splitAll d cs := by
  simp [splitAll_eq_splitOn, List.splitOn_cons_eq_if_modifyHead]

theorem splitAll_append {d : Char} {part : List Char} (h : d ∉ part) (cs : List Char) :
    splitAll d (part ++ d :: cs) = part :: splitAll d cs := by
  simp [splitAll_eq_splitOn, List.splitOn_append_cons_self_of_not_mem h]

end Text

namespace Location

/-- Where a path leads: whether it starts at the root, and the names on the way. -/
structure Route where
  rooted : Bool
  names : List (List Char)
deriving DecidableEq

def namesBelow (parts : List (List Char)) : List (List Char) :=
  parts.filter fun name => name ≠ [] ∧ name ≠ ['.']

/-- Names that are empty or `.` do not count, but for a `.` in front. -/
def Route.of (path : String) : Route where
  rooted := path.toList.head? == some '/'
  names :=
    let parts := Text.splitAll '/' path.toList
    (parts.take 1).filter (· ≠ []) ++ namesBelow (parts.drop 1)

/-- Locations of one kind; of files, those whose paths lead to the same place. -/
def Same : Location → Location → Prop
  | .file path, .file path' => Route.of path = Route.of path'
  | here, there => here = there

instance : DecidableRel Same
  | .file path, .file path' => inferInstanceAs (Decidable (Route.of path = Route.of path'))
  | .file path, .transient | .file path, .memory =>
    inferInstanceAs (Decidable (Location.file path = _))
  | .transient, there => inferInstanceAs (Decidable (Location.transient = there))
  | .memory, there => inferInstanceAs (Decidable (Location.memory = there))

/-- How many slashes a path begins with. Reading takes pairs of them off, so that what was printed for a
path that begins with slashes can come back as another path. -/
def slashes (path : String) : Nat := (path.toList.takeWhile (· == '/')).length

/-- A path is its slashes in front and a rest that begins with none. -/
theorem exists_rest (path : String) : ∃ rest : List Char, rest.head? ≠ some '/' ∧
    path.toList = List.replicate (slashes path) '/' ++ rest := by
  refine ⟨path.toList.dropWhile (· == '/'), fun hslash => ?_, ?_⟩
  · have hdrop := List.head?_dropWhile_not (· == '/') path.toList
    simp [hslash] at hdrop
  · have hall : path.toList.takeWhile (· == '/') = List.replicate (slashes path) '/' :=
      List.eq_replicate_iff.mpr ⟨rfl, fun c hc => by simpa using List.mem_takeWhile_imp hc⟩
    rw [← hall, List.takeWhile_append_dropWhile]

/-- Pairs go, so of the slashes in front one is left or none. -/
theorem dropSlashPairs_replicate {rest : List Char} (h : rest.head? ≠ some '/') : ∀ n,
    dropSlashPairs (List.replicate n '/' ++ rest) = List.replicate (n % 2) '/' ++ rest
  | 0 => by
    match rest, h with
    | [], _ => rfl
    | c :: rest, h =>
      have hc : c ≠ '/' := by simpa using h
      simp [dropSlashPairs, hc]
  | 1 => by
    match rest, h with
    | [], _ => rfl
    | c :: rest, h =>
      have hc : c ≠ '/' := by simpa using h
      simp [dropSlashPairs, hc]
  | n + 2 => by
    rw [Nat.add_mod_right, ← dropSlashPairs_replicate h n]
    rfl

/-- More slashes in front lead no other way. -/
theorem route_of_slashes {path : String} {rest : List Char} {n : Nat}
    (h : path.toList = List.replicate (n + 1) '/' ++ rest) :
    Route.of path = ⟨true, namesBelow (Text.splitAll '/' rest)⟩ := by
  have hnames : ∀ n, namesBelow (Text.splitAll '/' (List.replicate n '/' ++ rest)) =
      namesBelow (Text.splitAll '/' rest) := by
    intro n
    induction n with
    | zero => rfl
    | succ n ih =>
      rw [List.replicate_succ, List.cons_append, Text.splitAll_cons_self, ← ih]
      rfl
  rw [Route.of, h, List.replicate_succ, List.cons_append, Text.splitAll_cons_self, ← hnames n]
  rfl

/-- What stands before the first slash is a name of its own. -/
theorem namesBelow_splitAll {part cs : List Char} (hslash : '/' ∉ part) (hempty : part ≠ [])
    (hdot : part ≠ ['.']) :
    namesBelow (Text.splitAll '/' (part ++ '/' :: cs)) =
      part :: namesBelow (Text.splitAll '/' cs) := by
  rw [Text.splitAll_append hslash]
  exact List.filter_cons_of_pos (by simp [hempty, hdot])

/-- Where an even number of slashes is taken off the front, what is left leads elsewhere: it does
not start at the root, or does so only for blanks that were a name. -/
theorem route_ne_of_trimStart {path : String} {rest : List Char} {n : Nat}
    (hpath : path.toList = List.replicate (n + 1) '/' ++ rest) (hrest : rest.head? ≠ some '/') :
    Route.of (String.ofList (Text.trimStart rest)) ≠ Route.of path := by
  intro heq
  rw [route_of_slashes hpath] at heq
  have hrooted : (Text.trimStart rest).head? = some '/' := by
    simpa [Route.of] using congrArg Route.rooted heq
  obtain ⟨below, hbelow⟩ := List.head?_eq_some_iff.mp hrooted
  have hblanks : ∀ c ∈ rest.takeWhile Text.isBlank, Text.isBlank c = true := fun c hc =>
    List.mem_takeWhile_imp hc
  have hsplit : rest = rest.takeWhile Text.isBlank ++ '/' :: below := by
    rw [← hbelow]
    exact (List.takeWhile_append_dropWhile (p := Text.isBlank)).symm
  have hnames := congrArg Route.names heq
  rw [route_of_slashes (n := 0) (by simpa using hbelow), hsplit, namesBelow_splitAll] at hnames
  · exact absurd hnames (List.cons_ne_self _ _).symm
  · exact fun hmem => absurd (hblanks _ hmem) (by decide)
  · intro hnil
    rw [hnil, List.nil_append] at hsplit
    exact hrest (by rw [hsplit]; rfl)
  · intro hdot
    exact absurd (hblanks '.' (by simp [hdot])) (by decide)

/-- Only trimmed paths are read, and none that is empty. -/
theorem read_file {raw path : String} (h : read raw = .ok (.file path)) :
    path ≠ "" ∧ Text.Trimmed path.toList := by
  simp only [read] at h
  split at h
  · simp at h
  split at h
  · simp at h
  split at h
  · simp at h
  split at h
  · simp at h
  · next hpath =>
    obtain rfl := Location.file.inj (Except.ok.inj h)
    exact ⟨fun hempty => hpath (by simp [hempty]), Text.trimmed_trim _⟩

/-- The text of a path other than the name of a database in memory reads as a path again. -/
theorem read_text_file {path : String} (hempty : path ≠ "") (htrim : Text.Trimmed path.toList)
    (hname : path ≠ ":memory:") :
    read (Location.file path).text =
      if (Text.trim (String.ofList (dropSlashPairs path.toList))).isEmpty
      then .error (.noPath (Location.file path).text)
      else .ok (.file (Text.trim (String.ofList (dropSlashPairs path.toList)))) := by
  have hlist : (Location.file path).text.toList = scheme.toList ++ path.toList :=
    String.toList_append
  have htext : Text.trim (Location.file path).text = (Location.file path).text := by
    refine Text.Trimmed.trim ⟨fun c hc => ?_, fun c hc => ?_⟩
    · rw [hlist] at hc
      obtain rfl : 's' = c := by simpa [scheme] using hc
      decide
    · rw [hlist, List.getLast?_append_of_ne_nil _ (by simpa using hempty)] at hc
      exact htrim.back c hc
  have hne : (Location.file path).text ≠ "memory:" := fun heq => by
    have := congrArg (fun s => s.toList.head?) heq
    simp [hlist, scheme] at this
  have hother : (Location.file path).text ≠ "sqlite::memory:" := fun heq => hname (by
    rw [show ("sqlite::memory:" : String) = scheme ++ ":memory:" from rfl] at heq
    exact String.append_right_inj _ |>.mp heq)
  simp only [read, htext, hne, hother, hlist, Text.dropStem?_append, if_false]

theorem comes_back_of_odd {path : String} (htrim : Text.Trimmed path.toList)
    (hname : path ≠ ":memory:") (hodd : Odd (slashes path)) :
    ∃ back, read (Location.file path).text = .ok back ∧ back.Same (.file path) := by
  obtain ⟨rest, hrest, hpath⟩ := exists_rest path
  have hempty : path ≠ "" := by
    rintro rfl
    exact absurd hodd (by decide)
  have hread := read_text_file hempty htrim hname
  rw [hpath, dropSlashPairs_replicate hrest, Nat.odd_iff.mp hodd, List.replicate_one,
    List.singleton_append] at hread
  obtain ⟨n, hn⟩ := hodd
  rw [hn] at hpath
  have hslash : Text.trimStart ('/' :: rest) = '/' :: rest :=
    Text.trimStart_eq_self fun c hc => by cases hc; decide
  have hend : ∀ c ∈ ('/' :: rest).getLast?, Text.isBlank c = false := by
    intro c hc
    refine htrim.back c ?_
    rw [hpath, List.replicate_succ', List.append_assoc]
    exact List.mem_getLast?_append_of_mem_getLast? hc
  refine ⟨.file (String.ofList ('/' :: rest)), ?_, ?_⟩
  · rw [Text.trim_ofList hend, hslash] at hread
    simpa using hread
  · have hone : (String.ofList ('/' :: rest)).toList = List.replicate (0 + 1) '/' ++ rest := by simp
    rw [Same, route_of_slashes hpath, route_of_slashes hone]

theorem not_comes_back_of_even {path : String} (htrim : Text.Trimmed path.toList)
    (hname : path ≠ ":memory:") (heven : Even (slashes path)) (hpos : 0 < slashes path) :
    ¬ ∃ back, read (Location.file path).text = .ok back ∧ back.Same (.file path) := by
  rintro ⟨back, hback, hsame⟩
  obtain ⟨n, hn⟩ := Nat.exists_eq_add_of_lt hpos
  obtain ⟨rest, hrest, hpath⟩ := exists_rest path
  have hempty : path ≠ "" := by
    rintro rfl
    exact absurd hpos (by decide)
  have hread := read_text_file hempty htrim hname
  rw [hpath, dropSlashPairs_replicate hrest, Nat.even_iff.mp heven, List.replicate_zero,
    List.nil_append, hback] at hread
  have hend : ∀ c ∈ rest.getLast?, Text.isBlank c = false := by
    intro c hc
    refine htrim.back c ?_
    rw [hpath]
    exact List.mem_getLast?_append_of_mem_getLast? hc
  rw [Text.trim_ofList hend] at hread
  split at hread
  · simp at hread
  · cases hread
    rw [hn, Nat.zero_add] at hpath
    exact route_ne_of_trimStart hpath hrest hsame

/-- A location that was read comes back from its text, but for the file `:memory:`, whose text names
a database in memory, and for paths with an even number of slashes in front, which come back without
their root or not at all. -/
theorem comes_back_iff {raw : String} {there : Location} (h : read raw = .ok there) :
    (∃ back, read there.text = .ok back ∧ back.Same there) ↔
      there ≠ .file ":memory:" ∧
        ∀ path, there = .file path → slashes path = 0 ∨ Odd (slashes path) := by
  cases there with
  | transient => exact iff_of_true ⟨.transient, by decide, rfl⟩ (by simp)
  | memory => exact iff_of_true ⟨.memory, by decide, rfl⟩ (by simp)
  | file path =>
    obtain ⟨hempty, htrim⟩ := read_file h
    by_cases hname : path = ":memory:"
    · subst hname
      refine iff_of_false ?_ (by simp)
      rintro ⟨back, hback, hsame⟩
      have hread : read (Location.file ":memory:").text = .ok .transient := by decide
      rw [hread] at hback
      cases hback
      exact absurd hsame (by decide)
    simp only [ne_eq, Location.file.injEq, hname, not_false_eq_true, true_and, forall_eq']
    rcases Nat.eq_zero_or_pos (slashes path) with hnone | hpos
    · obtain ⟨rest, hrest, hpath⟩ := exists_rest path
      refine iff_of_true ⟨.file path, ?_, rfl⟩ (.inl hnone)
      have hread := read_text_file hempty htrim hname
      rw [hpath, dropSlashPairs_replicate hrest, hnone] at hread
      rw [hnone, List.replicate_zero, List.nil_append] at hpath
      simpa [← hpath, htrim.trim, hempty] using hread
    · rcases Nat.even_or_odd (slashes path) with heven | hodd
      · refine iff_of_false (not_comes_back_of_even htrim hname heven hpos) ?_
        rintro (hnone | hodd)
        · omega
        · exact Nat.not_even_iff_odd.mpr hodd heven
      · exact iff_of_true (comes_back_of_odd htrim hname hodd) (.inr hodd)

/-- Three slashes in front are as good as one, two are not. -/
theorem comes_back_iff_threeSlashes :
    (∃ back, read (Location.file "///tmp/a").text = .ok back ∧ back.Same (.file "///tmp/a")) ∧
      ¬ ∃ back, read (Location.file "//tmp/a").text = .ok back ∧ back.Same (.file "//tmp/a") := by
  have hthree : read "sqlite: ///tmp/a" = .ok (.file "///tmp/a") := by decide
  have htwo : read "sqlite: //tmp/a" = .ok (.file "//tmp/a") := by decide
  constructor
  · refine (comes_back_iff hthree).mpr ⟨by decide, ?_⟩
    rintro _ ⟨⟩
    exact .inr (by decide)
  · intro h
    have hslashes := ((comes_back_iff htwo).mp h).2 _ rfl
    exact absurd hslashes (by decide)

/-- The path `:memory:` is read, and its text names no file. -/
theorem text_of_memoryPath :
    read "sqlite://:memory:" = .ok (.file ":memory:") ∧
      read (Location.file ":memory:").text = .ok .transient ∧
      ¬ Same .transient (.file ":memory:") := by
  decide

end Location

end TagStore
