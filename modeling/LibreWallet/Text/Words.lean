import LibreWallet.Text.Numerals

/-
  Text/Words.lean --- the words of a text.

  A text is a list of code units, and `space` says which of them separate words.  `words` are
  the longest runs of the others.  Trimming a text and collapsing every run of spaces into one
  separator leaves its words, joined by that separator (`collapse_trim`).  `isWhite` is the white
  space of ECMAScript, and `trim` and `toLowerCase` are the methods of its strings.

  Nothing here names a particular program.
-/

set_option autoImplicit false

namespace LibreWallet.Text.Words

variable {space : CharClass}

/-- The longest runs of code units that are no spaces. -/
def words (space : CharClass) : List Nat → List (List Nat)
  | [] => []
  | c :: t =>
    if space c then words space t
    else if t.head?.all space then [c] :: words space t
    else (words space t).modifyHead (c :: ·)

/-- Every run of spaces becomes one separator. -/
def collapse (space : CharClass) (sep : Nat) : List Nat → List Nat
  | [] => []
  | c :: t =>
    if space c then
      if t.head?.any space then collapse space sep t else sep :: collapse space sep t
    else c :: collapse space sep t

/-- Without the spaces around it. -/
def trim (space : CharClass) (t : List Nat) : List Nat :=
  ((t.dropWhile space).reverse.dropWhile space).reverse

/-- Words with a separator between any two of them. -/
def join (sep : Nat) : List (List Nat) → List Nat
  | [] => []
  | [w] => w
  | w :: ws => w ++ sep :: join sep ws

theorem join_cons {sep : Nat} {w : List Nat} {ws : List (List Nat)} (h : ws ≠ []) :
    join sep (w :: ws) = w ++ sep :: join sep ws := by
  cases ws with
  | nil => exact absurd rfl h
  | cons v vs => rfl

theorem join_modifyHead {sep : Nat} {ws : List (List Nat)} (c : Nat) (h : ws ≠ []) :
    join sep (ws.modifyHead (c :: ·)) = c :: join sep ws := by
  cases ws with
  | nil => exact absurd rfl h
  | cons w ws =>
    cases ws with
    | nil => rfl
    | cons v vs => rfl

/-! ## What spaces do not change -/

theorem words_of_spaces {t : List Nat} (h : ∀ c ∈ t, space c = true) : words space t = [] := by
  induction t with
  | nil => rfl
  | cons c t ih =>
    rw [words, if_pos (h c List.mem_cons_self)]
    exact ih fun x hx => h x (List.mem_cons_of_mem c hx)

theorem words_dropWhile (t : List Nat) : words space (t.dropWhile space) = words space t := by
  induction t with
  | nil => rfl
  | cons c t ih =>
    rw [List.dropWhile_cons]
    split
    · rename_i hc
      rw [ih, words, if_pos hc]
    · rfl

theorem mem_words {t w : List Nat} {c : Nat} (hw : w ∈ words space t) (hc : c ∈ w) :
    space c = false ∧ c ∈ t := by
  induction t generalizing w with
  | nil => cases hw
  | cons x t ih =>
    rw [words] at hw
    split at hw
    · exact (ih hw hc).imp_right (List.mem_cons_of_mem x)
    · rename_i hx
      rw [Bool.not_eq_true] at hx
      split at hw
      · rcases List.mem_cons.mp hw with rfl | hw
        · rw [List.mem_singleton.mp hc]
          exact ⟨hx, List.mem_cons_self⟩
        · exact (ih hw hc).imp_right (List.mem_cons_of_mem x)
      · cases hws : words space t with
        | nil =>
          rw [hws] at hw
          cases hw
        | cons v vs =>
          rw [hws] at hw ih
          rcases List.mem_cons.mp hw with rfl | hw
          · rcases List.mem_cons.mp hc with rfl | hc
            · exact ⟨hx, List.mem_cons_self⟩
            · exact (ih List.mem_cons_self hc).imp_right (List.mem_cons_of_mem x)
          · exact (ih (List.mem_cons_of_mem v hw) hc).imp_right (List.mem_cons_of_mem x)

theorem words_append_spaces {s : List Nat} (h : ∀ c ∈ s, space c = true) (t : List Nat) :
    words space (t ++ s) = words space t := by
  induction t with
  | nil => exact words_of_spaces h
  | cons c t ih =>
    have hhead : (t ++ s).head?.all space = t.head?.all space := by
      cases t with
      | nil =>
        cases s with
        | nil => rfl
        | cons x s => simpa using h x List.mem_cons_self
      | cons x t => rfl
    rw [List.cons_append, words, words, hhead, ih]

/-- What is trimmed off the end. -/
theorem trim_append (t : List Nat) :
    t.dropWhile space = trim space t ++ ((t.dropWhile space).reverse.takeWhile space).reverse := by
  rw [trim, ← List.reverse_append, List.takeWhile_append_dropWhile, List.reverse_reverse]

theorem words_trim (t : List Nat) : words space (trim space t) = words space t := by
  have hspaces : ∀ c ∈ ((t.dropWhile space).reverse.takeWhile space).reverse, space c = true :=
    fun c hc => List.mem_takeWhile_imp (List.mem_reverse.mp hc)
  rw [← words_dropWhile t, trim_append t, words_append_spaces hspaces]

/-! ## What is left -/

theorem words_ne_nil {t : List Nat} (h : ∃ c ∈ t, space c = false) : words space t ≠ [] := by
  induction t with
  | nil => simp at h
  | cons c t ih =>
    rw [words]
    split
    · rename_i hc
      obtain ⟨x, hx, hspace⟩ := h
      rcases List.mem_cons.mp hx with rfl | hx
      · rw [hc] at hspace
        cases hspace
      · exact ih ⟨x, hx, hspace⟩
    · split
      · exact List.cons_ne_nil _ _
      · rename_i hhead
        cases t with
        | nil => simp at hhead
        | cons x t =>
          have hx : space x = false := by simpa using hhead
          have hne := ih ⟨x, List.mem_cons_self, hx⟩
          intro hnil
          cases hws : words space (x :: t) with
          | nil => exact hne hws
          | cons w ws =>
            rw [hws] at hnil
            cases hnil

theorem trim_getLast {t : List Nat} {c : Nat} (h : (trim space t).getLast? = some c) :
    space c = false := by
  rw [trim, List.getLast?_reverse] at h
  have hhead := List.head?_dropWhile_not space (t.dropWhile space).reverse
  rw [h] at hhead
  simpa using hhead

theorem trim_head {t : List Nat} {c : Nat} (h : (trim space t).head? = some c) :
    space c = false := by
  have hhead := List.head?_dropWhile_not space t
  rw [trim_append t, List.head?_append, h] at hhead
  simpa using hhead

theorem dropWhile_eq_self {t : List Nat} (h : ∀ c, t.head? = some c → space c = false) :
    t.dropWhile space = t := by
  cases t with
  | nil => rfl
  | cons c t => rw [List.dropWhile_cons_of_neg (by simp [h c rfl])]

/-- A text is trimmed when it neither begins nor ends with a space. -/
theorem trim_eq_self {t : List Nat} (hhead : ∀ c, t.head? = some c → space c = false)
    (hlast : ∀ c, t.getLast? = some c → space c = false) : trim space t = t := by
  have hrev : ∀ c, t.reverse.head? = some c → space c = false := fun c hc =>
    hlast c (by rwa [List.head?_reverse] at hc)
  rw [trim, dropWhile_eq_self hhead, dropWhile_eq_self hrev, List.reverse_reverse]

theorem trim_trim (t : List Nat) : trim space (trim space t) = trim space t :=
  trim_eq_self (fun _ => trim_head) (fun _ => trim_getLast)

/-- A text that does not end with a space: its words, after a separator where it begins with
one. -/
theorem collapse_eq {sep : Nat} {t : List Nat}
    (hlast : ∀ c, t.getLast? = some c → space c = false) :
    collapse space sep t =
      (if t.head?.any space then [sep] else []) ++ join sep (words space t) := by
  induction t with
  | nil => rfl
  | cons c t ih =>
    cases t with
    | nil =>
      have hc := hlast c rfl
      simp [collapse, words, join, hc]
    | cons x t =>
      have hrest : ∀ d, (x :: t).getLast? = some d → space d = false :=
        fun d hd => hlast d (by rw [List.getLast?_cons_cons]; exact hd)
      have hne : words space (x :: t) ≠ [] := by
        have hmem := List.getLast_mem (List.cons_ne_nil x t)
        exact words_ne_nil ⟨_, hmem, hrest _ (List.getLast?_eq_some_getLast _)⟩
      have hrec := ih hrest
      rw [collapse, words, hrec]
      simp only [List.head?_cons, Option.any_some, Option.all_some]
      rcases Bool.eq_false_or_eq_true (space c) with hc | hc
      · rcases Bool.eq_false_or_eq_true (space x) with hx | hx
        · simp [hc, hx]
        · simp [hc, hx]
      · rcases Bool.eq_false_or_eq_true (space x) with hx | hx
        · simp [hc, hx, join_cons hne]
        · simp [hc, hx, join_modifyHead c hne]

/-- Trimmed and collapsed, a text is its words with one separator between them. -/
theorem collapse_trim (sep : Nat) (t : List Nat) :
    collapse space sep (trim space t) = join sep (words space t) := by
  rw [collapse_eq fun c => trim_getLast, words_trim]
  have hhead : (trim space t).head?.any space = false := by
    cases hh : (trim space t).head? with
    | none => rfl
    | some c => exact trim_head hh
  rw [hhead]
  rfl

/-! ## Joined words -/

theorem words_append {w : List Nat} (hw : w ≠ []) (hns : ∀ c ∈ w, space c = false) {t : List Nat}
    (ht : t.head?.all space = true) : words space (w ++ t) = w :: words space t := by
  induction w with
  | nil => exact absurd rfl hw
  | cons c w ih =>
    have hc : space c = false := hns c List.mem_cons_self
    rw [List.cons_append, words, hc]
    cases w with
    | nil => simp [ht]
    | cons x w =>
      have hx : space x = false := hns x (by simp)
      rw [ih (List.cons_ne_nil x w) fun d hd => hns d (List.mem_cons_of_mem c hd)]
      simp [hx]

/-- Joined by a space, words come apart again. -/
theorem words_join {sep : Nat} (hsep : space sep = true) {ws : List (List Nat)}
    (hne : ∀ w ∈ ws, w ≠ []) (hns : ∀ w ∈ ws, ∀ c ∈ w, space c = false) :
    words space (join sep ws) = ws := by
  induction ws with
  | nil => rfl
  | cons w ws ih =>
    have hw := hne w List.mem_cons_self
    have hwns := hns w List.mem_cons_self
    cases ws with
    | nil =>
      have h := words_append hw hwns (t := []) rfl
      rw [List.append_nil] at h
      exact h
    | cons v vs =>
      have hrec := ih (fun x hx => hne x (List.mem_cons_of_mem w hx))
        (fun x hx => hns x (List.mem_cons_of_mem w hx))
      rw [join_cons (List.cons_ne_nil v vs), words_append hw hwns (by simpa using hsep), words,
        if_pos hsep, hrec]

/-- What lies between the separators, without the empty texts, are the words. -/
theorem filter_splitOn (sep : Nat) (t : List Nat) :
    (t.splitOn sep).filter (· ≠ []) = words (exactly sep) t := by
  induction t with
  | nil => rfl
  | cons c t ih =>
    rw [List.splitOn_cons_eq_if_modifyHead, words, exactly_apply]
    split
    · rw [List.filter_cons_of_neg (by simp), ih]
    · rw [← ih]
      cases t with
      | nil => rfl
      | cons x t =>
        rw [List.head?_cons, Option.all_some, exactly_apply, List.splitOn_cons_eq_if_modifyHead]
        split
        · rw [List.filter_cons_of_neg (by simp), List.modifyHead_cons,
            List.filter_cons_of_pos (by simp)]
        · cases hs : t.splitOn sep with
          | nil => exact absurd hs (List.splitOn_ne_nil sep t)
          | cons w ws => simp

theorem join_map {sep : Nat} (f : Nat → Nat) (hf : f sep = sep) (ws : List (List Nat)) :
    (join sep ws).map f = join sep (ws.map (List.map f)) := by
  induction ws with
  | nil => rfl
  | cons w ws ih =>
    cases ws with
    | nil => rfl
    | cons v vs =>
      rw [join_cons (List.cons_ne_nil v vs), List.map_append, List.map_cons, hf, ih]
      rfl

theorem mem_join {sep : Nat} {ws : List (List Nat)} {c : Nat} (h : c ∈ join sep ws) :
    c = sep ∨ ∃ w ∈ ws, c ∈ w := by
  induction ws with
  | nil => cases h
  | cons w ws ih =>
    cases ws with
    | nil => exact .inr ⟨w, List.mem_cons_self, h⟩
    | cons v vs =>
      rw [join_cons (List.cons_ne_nil v vs), List.mem_append, List.mem_cons] at h
      rcases h with h | rfl | h
      · exact .inr ⟨w, List.mem_cons_self, h⟩
      · exact .inl rfl
      · rcases ih h with hsep | ⟨x, hx, hc⟩
        · exact .inl hsep
        · exact .inr ⟨x, List.mem_cons_of_mem w hx, hc⟩

end LibreWallet.Text.Words

namespace LibreWallet.Text

/-! ## The methods of strings -/

/-- White space and line terminators. -/
def isWhite (c : Nat) : Bool :=
  c ∈ [9, 10, 11, 12, 13, 32, 0xa0, 0x1680, 0x2028, 0x2029, 0x202f, 0x205f, 0x3000, 0xfeff] ||
    between 0x2000 0x200a c

/-- `trim()` -/
def trim (t : List Nat) : List Nat := Words.trim isWhite t

/-- `toLowerCase()`; `unicode` is what the tables of Unicode say of a text that is not ASCII. -/
def toLowerCase (unicode : List Nat → List Nat) (t : List Nat) : List Nat :=
  if t.all (· < 128) then t.map fun c => if 65 ≤ c ∧ c ≤ 90 then c + 32 else c else unicode t

theorem isWhite_of_ge {c : Nat} (hlo : 43 ≤ c) (hhi : c < 128) : isWhite c = false := by
  simp [isWhite, between]
  omega

theorem trim_of_not_white {t : List Nat} (h : ∀ c ∈ t, isWhite c = false) : trim t = t :=
  Words.trim_eq_self (fun c hc => h c (List.mem_of_head? hc))
    fun c hc => h c (List.mem_of_getLast? hc)

theorem toLowerCase_of_lower {t : List Nat} (unicode : List Nat → List Nat)
    (h : ∀ c ∈ t, c < 128 ∧ ¬(65 ≤ c ∧ c ≤ 90)) : toLowerCase unicode t = t := by
  have hall : t.all (· < 128) = true := by
    rw [List.all_eq_true]
    intro c hc
    exact decide_eq_true (h c hc).1
  rw [toLowerCase, if_pos hall]
  refine (List.map_congr_left ?_).trans (List.map_id t)
  intro c hc
  exact if_neg (h c hc).2

end LibreWallet.Text
