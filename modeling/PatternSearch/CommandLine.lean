import Mathlib.Data.List.Basic

/-!
Command lines. A table says what a word does where an option is expected: it asks for help, sets
a flag, or takes the next word as its value. The words are read from the left until one of them
cannot be read. What is read are the concatenations of settings that the table knows, and an
entry of the result is what its last setting has made of it.
-/

namespace PatternSearch.CommandLine

variable {W S E T : Type}

section Read

/-- What a word does in the place of an option. -/
inductive Effect (W S E : Type)
  | help
  | flag (set : S → S)
  | value (set : W → S → Except E S)

inductive Outcome (W S E : Type)
  | read (s : S)
  | help
  | unknown (word : W)
  | missing (option : W)
  | refused (reason : E)

variable (table : W → Option (Effect W S E))

def readWords : List W → S → Outcome W S E
  | [], s => .read s
  | a :: rest, s =>
    match table a with
    | none => .unknown a
    | some .help => .help
    | some (.flag set) => readWords rest (set s)
    | some (.value set) =>
      match rest with
      | [] => .missing a
      | v :: rest =>
        match set v s with
        | .ok s => readWords rest s
        | .error e => .refused e

end Read

section Settings

/-- A flag, or an option with its value. -/
inductive Setting (W : Type)
  | flag (option : W)
  | value (option value : W)

def Setting.words : Setting W → List W
  | .flag a => [a]
  | .value a v => [a, v]

/-- The words of a list of settings. -/
def wordsOf (settings : List (Setting W)) : List W := settings.flatMap Setting.words

/-- The settings, one after the other, where the table knows them and refuses no value. -/
inductive Applies (table : W → Option (Effect W S E)) : List (Setting W) → S → S → Prop
  | nil {s} : Applies table [] s s
  | flag {a set settings s s'} (h : table a = some (.flag set))
      (hrest : Applies table settings (set s) s') : Applies table (.flag a :: settings) s s'
  | value {a v set settings s mid s'} (h : table a = some (.value set))
      (hset : set v s = .ok mid) (hrest : Applies table settings mid s') :
      Applies table (.value a v :: settings) s s'

/-- The words at which the reading stops, with the outcome. -/
inductive Stops (table : W → Option (Effect W S E)) (s : S) : List W → Outcome W S E → Prop
  | read : Stops table s [] (.read s)
  | unknown {a rest} (h : table a = none) : Stops table s (a :: rest) (.unknown a)
  | help {a rest} (h : table a = some .help) : Stops table s (a :: rest) .help
  | missing {a set} (h : table a = some (.value set)) : Stops table s [a] (.missing a)
  | refused {a v rest set e} (h : table a = some (.value set)) (hset : set v s = .error e) :
      Stops table s (a :: v :: rest) (.refused e)

variable {table : W → Option (Effect W S E)} {ws rest : List W} {s s' : S} {a v : W}
  {settings : List (Setting W)}

theorem readWords_flag {set : S → S} (h : table a = some (.flag set)) (rest : List W) :
    readWords table (a :: rest) s = readWords table rest (set s) := by
  simp only [readWords, h]

theorem readWords_value {set : W → S → Except E S} (h : table a = some (.value set))
    (hset : set v s = .ok s') (rest : List W) :
    readWords table (a :: v :: rest) s = readWords table rest s' := by
  simp only [readWords, h, hset]

/-- Settings are read by applying them. -/
theorem readWords_settings (h : Applies table settings s s') (rest : List W) :
    readWords table (wordsOf settings ++ rest) s = readWords table rest s' := by
  induction h with
  | nil => rfl
  | flag h hrest ih => exact (readWords_flag h _).trans ih
  | value h hset hrest ih => exact (readWords_value h hset _).trans ih

theorem readWords_of_stops {outcome : Outcome W S E} (h : Stops table s ws outcome) :
    readWords table ws s = outcome := by
  cases h with
  | read => rfl
  | unknown h => simp only [readWords, h]
  | help h => simp only [readWords, h]
  | missing h => simp only [readWords, h]
  | refused h hset => simp only [readWords, h, hset]

/-- The words are settings up to where the reading stops. -/
theorem exists_settings (table : W → Option (Effect W S E)) (ws : List W) (s : S) :
    ∃ settings rest mid, ws = wordsOf settings ++ rest ∧ Applies table settings s mid ∧
      Stops table mid rest (readWords table ws s) := by
  induction ws, s using readWords.induct table with
  | case1 s => exact ⟨[], [], s, rfl, .nil, .read⟩
  | case2 a rest s h =>
    refine ⟨[], a :: rest, s, rfl, .nil, ?_⟩
    rw [readWords_of_stops (.unknown h)]
    exact .unknown h
  | case3 a rest s h =>
    refine ⟨[], a :: rest, s, rfl, .nil, ?_⟩
    rw [readWords_of_stops (.help h)]
    exact .help h
  | case4 a rest s set h ih =>
    obtain ⟨settings, tail, mid, rfl, happlies, hstops⟩ := ih
    refine ⟨.flag a :: settings, tail, mid, rfl, .flag h happlies, ?_⟩
    rwa [readWords_flag h]
  | case5 a s set h =>
    refine ⟨[], [a], s, rfl, .nil, ?_⟩
    rw [readWords_of_stops (.missing h)]
    exact .missing h
  | case6 a s set h v rest mid hset ih =>
    obtain ⟨settings, tail, last, rfl, happlies, hstops⟩ := ih
    refine ⟨.value a v :: settings, tail, last, rfl, .value h hset happlies, ?_⟩
    rwa [readWords_value h hset]
  | case7 a s set h v rest e hset =>
    refine ⟨[], a :: v :: rest, s, rfl, .nil, ?_⟩
    rw [readWords_of_stops (.refused h hset)]
    exact .refused h hset

/-- What the reading comes to, by the settings it has read and the place where it stops. -/
theorem readWords_eq_iff {outcome : Outcome W S E} :
    readWords table ws s = outcome ↔ ∃ settings rest mid,
      ws = wordsOf settings ++ rest ∧ Applies table settings s mid ∧
        Stops table mid rest outcome := by
  constructor
  · rintro rfl
    exact exists_settings table ws s
  · rintro ⟨settings, rest, mid, rfl, happlies, hstops⟩
    rw [readWords_settings happlies, readWords_of_stops hstops]

/-- A command line is read to its end when it is a list of settings. -/
theorem readWords_eq_read_iff :
    readWords table ws s = .read s' ↔
      ∃ settings, ws = wordsOf settings ∧ Applies table settings s s' := by
  rw [readWords_eq_iff]
  constructor
  · rintro ⟨settings, rest, mid, rfl, happlies, hstops⟩
    cases hstops
    exact ⟨settings, List.append_nil _, happlies⟩
  · rintro ⟨settings, rfl, happlies⟩
    exact ⟨settings, [], s', (List.append_nil _).symm, happlies, .read⟩

/-- The last setting of an entry makes its value, or the entry stays what it was. -/
theorem entry_of_applies (get : S → T) (written : Setting W → Option T)
    (hflag : ∀ {a set s}, table a = some (.flag set) →
      get (set s) = (written (.flag a)).getD (get s))
    (hvalue : ∀ {a v set s mid}, table a = some (.value set) → set v s = .ok mid →
      get mid = (written (.value a v)).getD (get s))
    (h : Applies table settings s s') :
    get s' = ((settings.filterMap written).getLast?).getD (get s) := by
  have hlast : ∀ (x : Setting W) (l : List (Setting W)) (d : T),
      ((l.filterMap written).getLast?).getD ((written x).getD d) =
        (((x :: l).filterMap written).getLast?).getD d := by
    intro x l d
    cases hx : written x with
    | none =>
      rw [List.filterMap_cons_none hx]
      rfl
    | some t =>
      rw [List.filterMap_cons_some hx, List.getLast?_cons]
      rfl
  induction h with
  | nil => rfl
  | flag h hrest ih => rw [ih, hflag h, hlast]
  | value h hset hrest ih => rw [ih, hvalue h hset, hlast]

end Settings

end PatternSearch.CommandLine
