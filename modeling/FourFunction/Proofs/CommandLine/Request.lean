import FourFunction.CommandLine.Arguments
import Mathlib.Data.List.Nodup

/-! Requests do not depend on the order and the spelling of the arguments that make them. -/

namespace FourFunction.CommandLine

theorem bind_eq_ok_iff {α β : Type} {r : Except Request α} {f : α → Except Request β} {b : β} :
    r.bind f = .ok b ↔ ∃ a, r = .ok a ∧ f a = .ok b := by
  cases r <;> simp [Except.bind]

/-! ## Words -/

/-- Sets one flag, which may be given once. -/
def Flag.set : Flag → Settings → Except Request Settings
  | debug, s => s.setDebug
  | fromFile, s => s.setFromFile

namespace Flag

theorem long_ne (flag : Flag) : flag.long ≠ "--" := by
  cases flag <;> decide

theorem short_ne (flag : Flag) (others : List Flag) : short (flag :: others) ≠ "--" := by
  intro h
  have htoList := congrArg String.toList h
  rw [short, String.toList_ofList] at htoList
  cases flag <;> simp [letter] at htoList

end Flag

theorem IsPositional.ne {text : String} (h : IsPositional text) : text ≠ "--" := by
  rintro rfl
  rcases h with h | h
  · exact absurd h (by decide)
  · exact h ['-'] rfl

theorem Word.ne {a : String} {flags : List Flag} {texts : List String} (h : Word a flags texts) :
    a ≠ "--" := by
  cases h with
  | long flag => exact flag.long_ne
  | short flag others => exact Flag.short_ne flag others
  | text h => exact h.ne

/-- No flag is given twice and no more than one text. -/
def Admissible (flags : List Flag) (texts : List String) : Prop :=
  flags.Nodup ∧ texts.length ≤ 1

theorem Admissible.left {flags flags' : List Flag} {texts texts' : List String}
    (h : Admissible (flags ++ flags') (texts ++ texts')) : Admissible flags texts := by
  obtain ⟨hflags, htexts⟩ := h
  rw [List.length_append] at htexts
  exact ⟨hflags.of_append_left, by omega⟩

namespace Settings

variable {s s' : Settings} {done : List Flag} {before : List String}

theorem shorts_cons (s : Settings) (c : Char) (cs : List Char) :
    s.shorts (c :: cs) = (s.short c).bind fun s' => s'.shorts cs := by
  rw [shorts]
  cases s.short c <;> rfl

theorem positionals_cons (s : Settings) (text : String) (texts : List String) :
    s.positionals (text :: texts) = (s.positional text).bind fun s' => s'.positionals texts := by
  rw [positionals]
  cases s.positional text <;> rfl

theorem arguments_cons {a : String} (h : a ≠ "--") (s : Settings) (rest : List String) :
    s.arguments (a :: rest) = (s.argument a).bind fun s' => s'.arguments rest := by
  rw [arguments.eq_3 _ _ _ h]
  cases s.argument a <;> rfl

/-! ## Flags and texts -/

theorem short_eq_ok_iff {c : Char} :
    s.short c = .ok s' ↔ ∃ flag : Flag, flag.letter = c ∧ flag.set s = .ok s' := by
  constructor
  · intro h
    unfold short at h
    split at h
    · exact ⟨.debug, rfl, h⟩
    · exact ⟨.fromFile, rfl, h⟩
    all_goals simp at h
  · rintro ⟨flag, rfl, h⟩
    cases flag <;> exact h

theorem exists_of_long_eq_ok {name : String} (h : s.long name = .ok s') :
    ∃ flag : Flag, flag.long = "--" ++ name ∧ flag.set s = .ok s' := by
  unfold long at h
  split at h
  · exact ⟨.debug, rfl, h⟩
  · exact ⟨.fromFile, rfl, h⟩
  all_goals simp at h

theorem set_eq_ok_iff {flag : Flag} (hdone : done.Nodup) :
    flag.set (given done before) = .ok s ↔
      (done ++ [flag]).Nodup ∧ given (done ++ [flag]) before = s := by
  have hnodup : (done ++ [flag]).Nodup ↔ flag ∉ done := by
    rw [List.nodup_append_comm, List.singleton_append, List.nodup_cons, and_iff_left hdone]
  rw [hnodup]
  by_cases h : flag ∈ done <;> cases flag <;> simp [Flag.set, setDebug, setFromFile, given, h]

theorem positional_eq_ok_iff {text : String} :
    (given done before).positional text = .ok s ↔
      (before ++ [text]).length ≤ 1 ∧ given done (before ++ [text]) = s := by
  cases before <;> simp [positional, given]

theorem shorts_eq_ok_iff {cs : List Char} (hdone : done.Nodup) :
    (given done before).shorts cs = .ok s ↔ ∃ flags, flags.map Flag.letter = cs ∧
      (done ++ flags).Nodup ∧ given (done ++ flags) before = s := by
  induction cs generalizing done with
  | nil => simp [shorts, hdone]
  | cons c cs ih =>
      rw [shorts_cons, bind_eq_ok_iff]
      constructor
      · rintro ⟨s', hshort, hrest⟩
        obtain ⟨flag, rfl, hset⟩ := short_eq_ok_iff.mp hshort
        obtain ⟨hnodup, rfl⟩ := (set_eq_ok_iff hdone).mp hset
        obtain ⟨flags, rfl, hflags⟩ := (ih hnodup).mp hrest
        rw [← List.append_cons] at hflags
        exact ⟨flag :: flags, rfl, hflags⟩
      · rintro ⟨flags, hletters, hflags⟩
        obtain ⟨flag, flags, rfl, rfl, rfl⟩ := List.map_eq_cons_iff.mp hletters
        rw [List.append_cons] at hflags
        have hnodup := hflags.1.of_append_left
        exact ⟨_, short_eq_ok_iff.mpr ⟨flag, rfl, (set_eq_ok_iff hdone).mpr ⟨hnodup, rfl⟩⟩,
          (ih hnodup).mpr ⟨flags, rfl, hflags⟩⟩

theorem positionals_eq_ok_iff {texts : List String} (hbefore : before.length ≤ 1) :
    (given done before).positionals texts = .ok s ↔
      (before ++ texts).length ≤ 1 ∧ given done (before ++ texts) = s := by
  induction texts generalizing before with
  | nil => simp [positionals, hbefore]
  | cons text texts ih =>
      rw [positionals_cons, bind_eq_ok_iff, List.append_cons]
      constructor
      · rintro ⟨s', hpositional, hrest⟩
        obtain ⟨hone, rfl⟩ := positional_eq_ok_iff.mp hpositional
        exact (ih hone).mp hrest
      · intro h
        have hone : (before ++ [text]).length ≤ 1 := by
          have hall := h.1
          rw [List.length_append] at hall
          omega
        exact ⟨_, positional_eq_ok_iff.mpr ⟨hone, rfl⟩, (ih hone).mpr h⟩

/-! ## One argument -/

theorem argument_long (s : Settings) (flag : Flag) : s.argument flag.long = flag.set s := by
  cases flag <;> rfl

theorem argument_short (s : Settings) (flag : Flag) (others : List Flag) :
    s.argument (Flag.short (flag :: others)) = s.shorts ((flag :: others).map Flag.letter) := by
  rw [argument, Flag.short, String.toList_ofList]
  cases flag <;> rfl

theorem argument_text {text : String} (h : IsPositional text) (s : Settings) :
    s.argument text = s.positional text := by
  rcases h with rfl | h
  · rfl
  · rw [argument]
    split
    next heq => exact absurd heq (h _)
    next heq => exact absurd heq (h _)
    next => rfl

theorem argument_eq_ok_iff {a : String} (hadmissible : Admissible done before) :
    (given done before).argument a = .ok s ↔ ∃ flags texts, Word a flags texts ∧
      Admissible (done ++ flags) (before ++ texts) ∧
      given (done ++ flags) (before ++ texts) = s := by
  obtain ⟨hdone, hbefore⟩ := hadmissible
  constructor
  · intro h
    unfold argument at h
    split at h
    next name hname =>
      obtain ⟨flag, hlong, hset⟩ := exists_of_long_eq_ok h
      obtain ⟨hnodup, rfl⟩ := (set_eq_ok_iff hdone).mp hset
      obtain rfl : flag.long = a := by
        rw [← String.toList_inj, hlong, hname]
        simp
      exact ⟨[flag], [], .long flag, ⟨hnodup, by simpa using hbefore⟩, by simp⟩
    next c cs _ hname =>
      obtain ⟨flags, hletters, hnodup, rfl⟩ := (shorts_eq_ok_iff hdone).mp h
      obtain ⟨flag, others, rfl, -, -⟩ := List.map_eq_cons_iff.mp hletters
      obtain rfl : Flag.short (flag :: others) = a := by
        rw [← String.toList_inj, Flag.short, String.toList_ofList, hletters, hname]
      exact ⟨flag :: others, [], .short flag others, ⟨hnodup, by simpa using hbefore⟩, by simp⟩
    next hlong hshort =>
      obtain ⟨hone, rfl⟩ := positional_eq_ok_iff.mp h
      have hpositional : IsPositional a := by
        refine or_iff_not_imp_left.mpr fun hne cs hcs => ?_
        cases cs with
        | nil => exact hne (String.toList_inj.mp hcs)
        | cons c cs => exact hshort c cs hcs
      exact ⟨[], [a], .text hpositional, ⟨by simpa using hdone, hone⟩, by simp⟩
  · rintro ⟨flags, texts, hword, ⟨hflags, htexts⟩, rfl⟩
    cases hword with
    | long flag =>
        rw [argument_long, List.append_nil]
        exact (set_eq_ok_iff hdone).mpr ⟨hflags, rfl⟩
    | short flag others =>
        rw [argument_short, List.append_nil]
        exact (shorts_eq_ok_iff hdone).mpr ⟨_, rfl, hflags, rfl⟩
    | text h =>
        rw [argument_text h, List.append_nil]
        exact positional_eq_ok_iff.mpr ⟨htexts, rfl⟩

/-! ## All arguments -/

/-- Arguments are accepted if they give flags and texts that may be added to those given before, and
these are what the settings hold afterwards. -/
theorem arguments_eq_ok_iff {args : List String} (hadmissible : Admissible done before) :
    (given done before).arguments args = .ok s ↔ ∃ flags texts, Gives args flags texts ∧
      Admissible (done ++ flags) (before ++ texts) ∧
      given (done ++ flags) (before ++ texts) = s := by
  constructor
  · intro h
    induction args generalizing done before with
    | nil =>
        rw [arguments] at h
        exact ⟨[], [], .nil, by simpa using hadmissible, by simpa using h⟩
    | cons a args ih =>
        by_cases hended : a = "--"
        · rw [hended, arguments, positionals_eq_ok_iff hadmissible.2] at h
          rw [hended]
          exact ⟨[], args, .ended args, ⟨by simpa using hadmissible.1, h.1⟩, by simpa using h.2⟩
        · rw [arguments_cons hended, bind_eq_ok_iff] at h
          obtain ⟨s', hargument, hrest⟩ := h
          obtain ⟨flags, texts, hword, hleft, rfl⟩ := (argument_eq_ok_iff hadmissible).mp hargument
          obtain ⟨flags', texts', hgives, h⟩ := ih hleft hrest
          rw [List.append_assoc, List.append_assoc] at h
          exact ⟨_, _, .word hword hgives, h⟩
  · rintro ⟨flags, texts, hgives, hall, rfl⟩
    induction hgives generalizing done before with
    | nil => rw [List.append_nil, List.append_nil, arguments]
    | ended texts =>
        rw [arguments, List.append_nil]
        exact (positionals_eq_ok_iff hadmissible.2).mpr ⟨hall.2, rfl⟩
    | word hword _ ih =>
        rw [← List.append_assoc, ← List.append_assoc] at hall ⊢
        rw [arguments_cons hword.ne, bind_eq_ok_iff]
        exact ⟨_, (argument_eq_ok_iff hadmissible).mpr ⟨_, _, hword, hall.left, rfl⟩,
          ih hall.left hall⟩

end Settings

/-! ## Arguments that are refused -/

/-- A request that is decided before all arguments are taken is not one to evaluate anything. -/
def Refuses {α : Type} (r : Except Request α) : Prop :=
  ∀ debug fromFile contents, r ≠ .error (.calculate debug fromFile contents)

theorem Refuses.bind {α β : Type} {r : Except Request α} {f : α → Except Request β}
    (h : Refuses r) (hf : ∀ a, Refuses (f a)) : Refuses (r.bind f) := by
  cases r with
  | ok a => exact hf a
  | error request =>
      intro debug fromFile contents hrequest
      exact h debug fromFile contents (congrArg _ (Except.error.inj hrequest))

namespace Settings

theorem refuses_setDebug (s : Settings) : Refuses s.setDebug := by
  rw [setDebug]
  split <;> simp [Refuses]

theorem refuses_setFromFile (s : Settings) : Refuses s.setFromFile := by
  rw [setFromFile]
  split <;> simp [Refuses]

theorem refuses_long (s : Settings) (name : String) : Refuses (s.long name) := by
  unfold long
  split
  · exact s.refuses_setDebug
  · exact s.refuses_setFromFile
  all_goals simp [Refuses]

theorem refuses_short (s : Settings) (c : Char) : Refuses (s.short c) := by
  unfold short
  split
  · exact s.refuses_setDebug
  · exact s.refuses_setFromFile
  all_goals simp [Refuses]

theorem refuses_shorts (s : Settings) (cs : List Char) : Refuses (s.shorts cs) := by
  induction cs generalizing s with
  | nil => simp [shorts, Refuses]
  | cons c cs ih =>
      rw [shorts_cons]
      exact (s.refuses_short c).bind ih

theorem refuses_positional (s : Settings) (text : String) : Refuses (s.positional text) := by
  unfold positional
  split <;> simp [Refuses]

theorem refuses_positionals (s : Settings) (texts : List String) :
    Refuses (s.positionals texts) := by
  induction texts generalizing s with
  | nil => simp [positionals, Refuses]
  | cons text texts ih =>
      rw [positionals_cons]
      exact (s.refuses_positional text).bind ih

theorem refuses_argument (s : Settings) (a : String) : Refuses (s.argument a) := by
  unfold argument
  split
  · exact s.refuses_long _
  · exact s.refuses_shorts _
  · exact s.refuses_positional _

theorem refuses_arguments (s : Settings) (args : List String) : Refuses (s.arguments args) := by
  induction args generalizing s with
  | nil => simp [arguments, Refuses]
  | cons a args ih =>
      by_cases hended : a = "--"
      · rw [hended, arguments]
        exact s.refuses_positionals args
      · rw [arguments_cons hended]
        exact (s.refuses_argument a).bind ih

end Settings

/-! ## Requests -/

namespace Request

/-- Arguments that give one text and no flag twice ask for the evaluation of the text. -/
theorem ofArguments_of_gives {args : List String} {flags : List Flag} {contents : String}
    (h : Gives args flags [contents]) (hflags : flags.Nodup) :
    ofArguments args = given flags contents := by
  have hnothing : Admissible [] [] := ⟨.nil, Nat.zero_le 1⟩
  have harguments : Settings.initial.arguments args = .ok (.given flags [contents]) :=
    (Settings.arguments_eq_ok_iff hnothing).mpr ⟨flags, [contents], h, ⟨hflags, Nat.le_refl 1⟩, rfl⟩
  rw [ofArguments, harguments]
  rfl

/-- Nothing is evaluated but for arguments that give one text and no flag twice. -/
theorem ofArguments_eq_calculate_iff {args : List String} {debug fromFile : Bool}
    {contents : String} : ofArguments args = .calculate debug fromFile contents ↔
      ∃ flags, Gives args flags [contents] ∧ flags.Nodup ∧
        given flags contents = .calculate debug fromFile contents := by
  constructor
  · intro h
    rw [ofArguments] at h
    cases harguments : Settings.initial.arguments args with
    | error request =>
        rw [harguments] at h
        exact absurd (harguments.trans (congrArg _ h)) (Settings.refuses_arguments _ _ _ _ _)
    | ok s =>
        have hnothing : Admissible [] [] := ⟨.nil, Nat.zero_le 1⟩
        obtain ⟨flags, texts, hgives, ⟨hflags, htexts⟩, rfl⟩ :=
          (Settings.arguments_eq_ok_iff hnothing).mp harguments
        rw [harguments] at h
        cases texts with
        | nil => simp [Settings.given] at h
        | cons text texts =>
            obtain rfl : texts = [] := by simpa using htexts
            change given flags text = _ at h
            obtain rfl : text = contents := by
              rw [given, calculate.injEq] at h
              exact h.2.2
            exact ⟨flags, hgives, hflags, h⟩
  · rintro ⟨flags, hgives, hflags, hrequest⟩
    rw [ofArguments_of_gives hgives hflags, hrequest]

end Request

end FourFunction.CommandLine
