import Mathlib.Data.List.Nodup
import Mathlib.Data.UInt
import Mathlib.Logic.Function.Basic
import Mathlib.Tactic.Common

/-! # Measuring before storing

A structure is walked twice. The first walk adds up in a word what its blocks will take and may
change the structure in place, the second one takes the memory. Both look up a block that occurs
again in a table of their own. A walk over a part at a time measures what the other one takes if
each part does.
-/

namespace ZendOpcache

variable {β σ X Y : Type*}

/-- A size rounded up to the alignment of 8 bytes -/
def aligned (n : ℕ) : ℕ := (n + 7) / 8 * 8

theorem aligned_of_dvd {n : ℕ} (h : 8 ∣ n) : aligned n = n := by
  unfold aligned
  omega

theorem le_aligned (n : ℕ) : n ≤ aligned n := by
  unfold aligned
  omega

theorem dvd_aligned (n : ℕ) : 8 ∣ aligned n := ⟨(n + 7) / 8, by unfold aligned; omega⟩

/-- The state of the first walk: the blocks that have been counted, and their sum -/
structure Measuring (β σ : Type*) where
  seen : List β
  used : UInt32
  rest : σ

/-- The state of the second walk: the next free position, and where the blocks are -/
structure Storing (β : Type*) where
  mem : ℕ
  xlat : β → Option ℕ

/-- What is known of the blocks. `counted` are those that both walks look up; `plain` ones are
counted without a look, and `late` ones are stored after their contents. -/
structure Kinds (β : Type*) where
  counted : β → Prop
  plain : β → Prop
  late : β → Prop
  plain_counted : ∀ b, plain b → ¬counted b

abbrev Measure (β σ X : Type*) := X → Measuring β σ → X × Measuring β σ

abbrev Store (β X : Type*) := X → Storing β → Storing β

/-- A part of a structure -/
structure Field (X Y : Type*) where
  get : X → Y
  set : X → Y → X
  get_set : ∀ x y, get (set x y) = y

def Field.measure (F : Field X Y) (f : Measure β σ Y) : Measure β σ X := fun x m =>
  let r := f (F.get x) m
  (F.set x r.1, r.2)

def Field.store (F : Field X Y) (g : Store β Y) : Store β X := fun x => g (F.get x)

namespace Measuring

def addSize (m : Measuring β σ) (n : ℕ) : Measuring β σ :=
  { m with used := m.used + UInt32.ofNat (aligned n) }

def addDupSize [DecidableEq β] (m : Measuring β σ) (b : β) (n : ℕ) : Measuring β σ :=
  if b ∈ m.seen then m else { m with seen := b :: m.seen }.addSize n

end Measuring

namespace Storing

def isStored (p : Storing β) (b : β) : Bool := (p.xlat b).isSome

variable [DecidableEq β] (p : Storing β)

def register (b : β) (a : ℕ) : Storing β := { p with xlat := Function.update p.xlat b (some a) }

def memdup (b : β) (n : ℕ) : Storing β :=
  if p.isStored b then p else { p.register b p.mem with mem := p.mem + aligned n }

end Storing

namespace Measure

def skip : Measure β σ X := fun x m => (x, m)

def seq (f f' : Measure β σ X) : Measure β σ X := fun x m =>
  let r := f x m
  f' r.1 r.2

def addSize (size : X → ℕ) : Measure β σ X := fun x m => (x, m.addSize (size x))

/-- The sum of a function of its own, which is rounded up again -/
def sumOf (f : Measure β σ X) : Measure β σ X := fun x m =>
  let r := f x { m with used := 0 }
  (r.1, { r.2 with used := m.used + UInt32.ofNat (aligned r.2.used.toNat) })

/-- Only where the condition holds -/
def when (c : X → Bool) (f : Measure β σ X) : Measure β σ X :=
  fun x m => if c x then f x m else (x, m)

/-- One part after the other -/
def prod (f : Measure β σ X) (f' : Measure β σ Y) : Measure β σ (X × Y) := fun x m =>
  let r := f x.1 m
  let r' := f' x.2 r.2
  ((r.1, r'.1), r'.2)

def option (f : Measure β σ X) : Measure β σ (Option X)
  | none, m => (none, m)
  | some x, m => let r := f x m; (some r.1, r.2)

def list (f : Measure β σ X) : Measure β σ (List X)
  | [], m => ([], m)
  | x :: xs, m =>
    let r := f x m
    let rs := list f xs r.2
    (r.1 :: rs.1, rs.2)

variable [DecidableEq β]

def addDupSize (block : X → β) (size : X → ℕ) : Measure β σ X :=
  fun x m => (x, m.addDupSize (block x) (size x))

/-- Nothing is done for a block that has been counted. -/
def once (block : X → β) (f : Measure β σ X) : Measure β σ X :=
  fun x m => if block x ∈ m.seen then (x, m) else f x m

end Measure

namespace Store

def skip : Store β X := fun _ p => p

def seq (g g' : Store β X) : Store β X := fun x p => g' x (g x p)

def when (c : X → Bool) (g : Store β X) : Store β X := fun x p => if c x then g x p else p

def prod (g : Store β X) (g' : Store β Y) : Store β (X × Y) := fun x p => g' x.2 (g x.1 p)

def option (g : Store β X) : Store β (Option X)
  | none, p => p
  | some x, p => g x p

def list (g : Store β X) : Store β (List X)
  | [], p => p
  | x :: xs, p => list g xs (g x p)

def once (block : X → β) (g : Store β X) : Store β X :=
  fun x p => if p.isStored (block x) then p else g x p

variable [DecidableEq β]

def memdup (block : X → β) (size : X → ℕ) : Store β X :=
  fun x p => p.memdup (block x) (size x)

/-- The block is dropped, but it is known that it was there. -/
def drop (block : X → β) : Store β X :=
  fun x p => if p.isStored (block x) then p else p.register (block x) 0

end Store

/-- Both walks know the same blocks. Those of `todo` have not been stored, and a block that is
`pending` has been counted only. -/
structure Related (K : Kinds β) (pending : Option β) (todo : List β) (m : Measuring β σ)
    (p : Storing β) : Prop where
  seen : ∀ b, K.counted b → (b ∈ m.seen ↔ p.isStored b ∨ pending = some b)
  todo_plain : ∀ b ∈ todo, K.plain b ∧ p.isStored b = false
  nodup : todo.Nodup
  pending_late : ∀ b, pending = some b → K.late b ∧ p.isStored b = false

/-- The same number of aligned bytes has been added to the sum and taken. -/
def Advanced (m : Measuring β σ) (p : Storing β) (m' : Measuring β σ) (p' : Storing β) : Prop :=
  m.seen ⊆ m'.seen ∧ ∃ n, 8 ∣ n ∧ m'.used = m.used + UInt32.ofNat n ∧ p'.mem = p.mem + n

/-- Where `ok` holds, the first walk counts what the second one takes, with the blocks `todo` for
the first time. -/
def Measures (K : Kinds β) (pending : Option β) (ok : X → Prop) (todo : X → List β)
    (f : Measure β σ X) (g : Store β X) : Prop :=
  ∀ x m p rest, ok x → Related K pending (todo x ++ rest) m p →
    Related K pending rest (f x m).2 (g (f x m).1 p) ∧
      Advanced m p (f x m).2 (g (f x m).1 p)

theorem Measure.length_list (f : Measure β σ X) (xs : List X) (m : Measuring β σ) :
    (f.list xs m).1.length = xs.length := by
  induction xs generalizing m with
  | nil => rfl
  | cons x xs ih => simp [Measure.list, ih]

section Steps

variable {K : Kinds β} {m m' m'' : Measuring β σ} {p p' p'' : Storing β} {pending : Option β}
  {todo : List β} {b : β} {n : ℕ}

theorem Advanced.refl : Advanced m p m p := ⟨fun _ h => h, 0, by omega, by simp, rfl⟩

theorem Advanced.trans (h : Advanced m p m' p') (h' : Advanced m' p' m'' p'') :
    Advanced m p m'' p'' := by
  obtain ⟨hs, n, hn, hu, hm⟩ := h
  obtain ⟨hs', n', hn', hu', hm'⟩ := h'
  refine ⟨fun _ hb => hs' (hs hb), n + n', Nat.dvd_add hn hn', ?_, by rw [hm', hm, Nat.add_assoc]⟩
  rw [hu', hu, UInt32.ofNat_add, UInt32.add_assoc]

/-- A block that is not pending is known to both walks or to none. -/
theorem Related.mem_seen_iff (h : Related K pending todo m p) (hc : K.counted b)
    (hl : pending ≠ some b) : b ∈ m.seen ↔ p.isStored b := by
  rw [h.seen b hc, or_iff_left hl]

theorem Related.ne_some (h : Related K pending todo m p) (hl : ¬K.late b) : pending ≠ some b :=
  fun heq => hl (h.pending_late b heq).1

/-- A block is counted that will be stored later. -/
theorem Related.count (h : Related K none todo m p) (hc : K.counted b) (hl : K.late b)
    (hb : b ∉ m.seen) : Related K (some b) todo { m with seen := b :: m.seen } p where
  seen b' hb' := by
    change b' ∈ b :: m.seen ↔ _
    rw [List.mem_cons, h.seen b' hb', Option.some_inj, or_comm, @eq_comm _ b]
    simp
  todo_plain := h.todo_plain
  nodup := h.nodup
  pending_late b' hb' := by
    obtain rfl := Option.some.inj hb'
    exact ⟨hl, Bool.eq_false_iff.mpr fun hs => hb ((h.seen b hc).mpr (.inl hs))⟩

variable [DecidableEq β]

theorem Storing.isStored_register {b' : β} {a : ℕ} :
    (p.register b a).isStored b' = (decide (b' = b) || p.isStored b') := by
  unfold Storing.isStored Storing.register
  by_cases h : b' = b
  · subst h
    simp
  · simp [h]

theorem Storing.isStored_register_of_ne {b' : β} {a : ℕ} (h : b' ≠ b) :
    (p.register b a).isStored b' = p.isStored b' := by
  rw [Storing.isStored_register, decide_eq_false h, Bool.false_or]

/-- The second walk stores a block that the first one does not look up. -/
theorem Related.register (h : Related K pending todo m p) (hc : ¬K.counted b) (hb : b ∉ todo)
    (hl : ¬K.late b) {a : ℕ} : Related K pending todo m (p.register b a) where
  seen b' hb' := by
    rw [h.seen b' hb', Storing.isStored_register_of_ne]
    rintro rfl
    exact hc hb'
  todo_plain b' hb' := by
    rw [Storing.isStored_register_of_ne]
    · exact h.todo_plain b' hb'
    · rintro rfl
      exact hb hb'
  nodup := h.nodup
  pending_late b' hb' := by
    rw [Storing.isStored_register_of_ne]
    · exact h.pending_late b' hb'
    · rintro rfl
      exact hl (h.pending_late b' hb').1

/-- A block that is pending, or that both walks come to, is stored. -/
theorem Related.deliver (h : Related K (some b) todo m p) (hc : K.counted b) {a : ℕ} :
    Related K none todo m (p.register b a) where
  seen b' hb' := by
    rw [h.seen b' hb', Storing.isStored_register, Option.some_inj, @eq_comm _ b]
    simp [or_comm]
  todo_plain b' hb' := by
    rw [Storing.isStored_register_of_ne]
    · exact h.todo_plain b' hb'
    · rintro rfl
      exact K.plain_counted b' (h.todo_plain b' hb').1 hc
  nodup := h.nodup
  pending_late b' hb' := by simp at hb'

theorem Related.addDupSize (h : Related K pending todo m p) (hc : K.counted b) (hl : ¬K.late b) :
    Related K pending todo (m.addDupSize b n) (p.memdup b n) ∧
      Advanced m p (m.addDupSize b n) (p.memdup b n) := by
  have hiff := h.mem_seen_iff hc (h.ne_some hl)
  by_cases hb : b ∈ m.seen
  · rw [Measuring.addDupSize, if_pos hb, Storing.memdup, if_pos (hiff.mp hb)]
    exact ⟨h, .refl⟩
  · rw [Measuring.addDupSize, if_neg hb, Storing.memdup, if_neg fun hs => hb (hiff.mpr hs)]
    refine ⟨⟨fun b' hb' => ?_, fun b' hb' => ?_, h.nodup, fun b' hb' => ?_⟩,
      fun b' hb' => List.mem_cons_of_mem b hb', aligned n, dvd_aligned n, rfl, rfl⟩
    · change b' ∈ b :: m.seen ↔ (p.register b p.mem).isStored b' = true ∨ _
      rw [List.mem_cons, h.seen b' hb', Storing.isStored_register]
      simp [or_assoc]
    · change K.plain b' ∧ (p.register b p.mem).isStored b' = false
      rw [Storing.isStored_register_of_ne]
      · exact h.todo_plain b' hb'
      · rintro rfl
        exact K.plain_counted b' (h.todo_plain b' hb').1 hc
    · change K.late b' ∧ (p.register b p.mem).isStored b' = false
      rw [Storing.isStored_register_of_ne]
      · exact h.pending_late b' hb'
      · rintro rfl
        exact hl (h.pending_late b' hb').1

end Steps

/-! ### The walks over the parts of a structure -/

namespace Measures

variable {K : Kinds β} {pending : Option β} {ok ok₁ ok₂ : X → Prop} {todo todo₁ todo₂ : X → List β}
  {f f₁ f₂ : Measure β σ X} {g g₁ g₂ : Store β X} {block : X → β} {size : X → ℕ}

theorem skip :
    Measures K pending (fun _ : X => True) (fun _ => []) (.skip : Measure β σ X) .skip :=
  fun _ _ _ _ _ h => ⟨h, .refl⟩

theorem mono (h : Measures K pending ok todo f g) (hok : ∀ x, ok₁ x → ok x)
    (htodo : ∀ x, ok₁ x → todo₁ x = todo x) : Measures K pending ok₁ todo₁ f g := by
  intro x m p rest hx hr
  rw [htodo x hx] at hr
  exact h x m p rest (hok x hx) hr

/-- A step that leaves the structure as it is, before another one that leaves what it reads -/
theorem seq (h₁ : Measures K pending (fun _ => True) todo₁ f₁ g₁)
    (h₂ : Measures K pending ok todo₂ f₂ g₂) (hf : ∀ x m, (f₁ x m).1 = x)
    (hg : ∀ x m, g₁ (f₂ x m).1 = g₁ x) :
    Measures K pending ok (fun x => todo₁ x ++ todo₂ x) (f₁.seq f₂) (g₁.seq g₂) := by
  intro x m p rest hx hr
  rw [List.append_assoc] at hr
  obtain ⟨hr₁, ha₁⟩ := h₁ x m p _ trivial hr
  rw [hf] at hr₁ ha₁
  obtain ⟨hr₂, ha₂⟩ := h₂ x (f₁ x m).2 _ rest hx hr₁
  have hrun : f₁.seq f₂ x m = f₂ x (f₁ x m).2 := by rw [Measure.seq, hf]
  rw [hrun, Store.seq, hg]
  exact ⟨hr₂, ha₁.trans ha₂⟩

/-- A step after one that leaves what it reads -/
theorem after (h₁ : Measures K pending ok todo₁ f₁ g₁)
    (h₂ : Measures K pending (fun _ => True) todo₂ f₂ g₂)
    (htodo : ∀ x m, todo₂ (f₁ x m).1 = todo₂ x) (hf : ∀ x m, (f₂ x m).1 = x) :
    Measures K pending ok (fun x => todo₁ x ++ todo₂ x) (f₁.seq f₂) (g₁.seq g₂) := by
  intro x m p rest hx hr
  rw [List.append_assoc] at hr
  obtain ⟨hr₁, ha₁⟩ := h₁ x m p _ hx hr
  rw [← htodo x m] at hr₁
  obtain ⟨hr₂, ha₂⟩ := h₂ (f₁ x m).1 (f₁ x m).2 _ rest trivial hr₁
  have hrun : (f₁.seq f₂ x m).1 = (f₁ x m).1 := hf _ _
  rw [Store.seq, hrun]
  rw [hf] at hr₂ ha₂
  exact ⟨hr₂, ha₁.trans ha₂⟩

theorem prod {ok' : Y → Prop} {todo' : Y → List β} {f' : Measure β σ Y} {g' : Store β Y}
    (h : Measures K pending ok todo f g) (h' : Measures K pending ok' todo' f' g') :
    Measures K pending (fun x : X × Y => ok x.1 ∧ ok' x.2) (fun x => todo x.1 ++ todo' x.2)
      (f.prod f') (g.prod g') := by
  intro x m p rest hx hr
  rw [List.append_assoc] at hr
  obtain ⟨hr₁, ha₁⟩ := h x.1 m p _ hx.1 hr
  obtain ⟨hr₂, ha₂⟩ := h' x.2 (f x.1 m).2 _ rest hx.2 hr₁
  exact ⟨hr₂, ha₁.trans ha₂⟩

theorem field {Z : Type*} {ok : Y → Prop} {todo : Y → List β} {f : Measure β σ Y} {g : Store β Y}
    (F : Field Z Y) (h : Measures K pending ok todo f g) :
    Measures K pending (fun z => ok (F.get z)) (fun z => todo (F.get z)) (F.measure f)
      (F.store g) := by
  intro z m p rest hz hr
  have := h (F.get z) m p rest hz hr
  simpa only [Field.measure, Field.store, F.get_set] using this

theorem option (h : Measures K pending ok todo f g) :
    Measures K pending (fun x : Option X => ∀ y, x = some y → ok y)
      (fun x => (x.map todo).getD []) f.option g.option := by
  intro x m p rest hx hr
  cases x with
  | none => exact ⟨hr, .refl⟩
  | some y => exact h y m p rest (hx y rfl) hr

theorem list (h : Measures K pending ok todo f g) :
    Measures K pending (fun xs : List X => ∀ x ∈ xs, ok x) (fun xs => xs.flatMap todo) f.list
      g.list := by
  intro xs
  induction xs with
  | nil => exact fun m p rest _ hr => ⟨hr, .refl⟩
  | cons x xs ih =>
    intro m p rest hx hr
    simp only [List.flatMap_cons, List.append_assoc] at hr
    obtain ⟨hr₁, ha₁⟩ := h x m p _ (hx x (by simp)) hr
    obtain ⟨hr₂, ha₂⟩ := ih (f x m).2 (g (f x m).1 p) rest (fun y hy => hx y (by simp [hy])) hr₁
    exact ⟨hr₂, ha₁.trans ha₂⟩

theorem option_nil (h : Measures K pending ok (fun _ => []) f g) :
    Measures K pending (fun x : Option X => ∀ y, x = some y → ok y) (fun _ => []) f.option
      g.option :=
  h.option.mono (fun _ hx => hx) fun x _ => by cases x <;> rfl

theorem list_nil (h : Measures K pending ok (fun _ => []) f g) :
    Measures K pending (fun xs : List X => ∀ x ∈ xs, ok x) (fun _ => []) f.list g.list :=
  h.list.mono (fun _ hx => hx) fun x _ => by simp

theorem when (h : Measures K pending ok todo f g) (c : X → Bool)
    (hc : ∀ x m, c (f x m).1 = c x) :
    Measures K pending (fun x => c x = true → ok x) (fun x => if c x then todo x else [])
      (f.when c) (g.when c) := by
  intro x m p rest hx hr
  unfold Measure.when
  split_ifs with hcond
  · simp only [hcond, if_true] at hr
    rw [Store.when, hc, if_pos hcond]
    exact h x m p rest (hx hcond) hr
  · simp only [hcond] at hr
    rw [Store.when, if_neg hcond]
    exact ⟨hr, .refl⟩

theorem sumOf (h : Measures K pending ok todo f g) : Measures K pending ok todo f.sumOf g := by
  intro x m p rest hx hr
  have hr₀ : Related K pending (todo x ++ rest) { m with used := 0 } p :=
    ⟨hr.seen, hr.todo_plain, hr.nodup, hr.pending_late⟩
  obtain ⟨hr', hs, n, hn, hused, hmem⟩ := h x { m with used := 0 } p rest hx hr₀
  refine ⟨⟨hr'.seen, hr'.todo_plain, hr'.nodup, hr'.pending_late⟩, hs, n, hn, ?_, hmem⟩
  have hused' : (f x { m with used := 0 }).2.used = UInt32.ofNat n := by
    rw [hused]
    exact UInt32.zero_add _
  have hdvd : 8 ∣ (UInt32.ofNat n).toNat := by
    rw [UInt32.toNat_ofNat']
    omega
  change m.used + UInt32.ofNat (aligned (f x { m with used := 0 }).2.used.toNat) = _
  rw [hused', aligned_of_dvd hdvd, UInt32.ofNat_toNat]

variable [DecidableEq β]

theorem addDupSize (hc : ∀ x, K.counted (block x)) (hl : ∀ x, ¬K.late (block x)) :
    Measures K pending (fun _ => True) (fun _ => []) (.addDupSize block size : Measure β σ X)
      (.memdup block size) :=
  fun x _ _ _ _ hr => Related.addDupSize hr (hc x) (hl x)

/-- A block that is counted without a look is stored for the first time. -/
theorem addSize (hl : ∀ x, ¬K.late (block x)) :
    Measures K pending (fun _ => True) (fun x => [block x]) (.addSize size : Measure β σ X)
      (.memdup block size) := by
  intro x m p rest _ hr
  obtain ⟨hplain, hs⟩ := hr.todo_plain (block x) (by simp)
  obtain ⟨hnew, hnodup⟩ : block x ∉ rest ∧ rest.Nodup := List.nodup_cons.mp hr.nodup
  have hrest : Related K pending rest m p :=
    ⟨hr.seen, fun b hb => hr.todo_plain b (by simp [hb]), hnodup, hr.pending_late⟩
  have hr' := hrest.register (K.plain_counted _ hplain) hnew (hl x) (a := p.mem)
  have hrun : Store.memdup block size (Measure.addSize size x m).1 p =
      { p.register (block x) p.mem with mem := p.mem + aligned (size x) } := by
    change p.memdup (block x) (size x) = _
    rw [Storing.memdup, hs, if_neg (by simp)]
  rw [hrun]
  exact ⟨⟨hr'.seen, hr'.todo_plain, hr'.nodup, hr'.pending_late⟩, fun _ hb => hb,
    aligned (size x), dvd_aligned _, rfl, rfl⟩

theorem once (h : Measures K pending ok (fun _ => []) f g)
    (hc : ∀ x, K.counted (block x)) (hl : ∀ x, ¬K.late (block x))
    (hblock : ∀ x m, block (f x m).1 = block x) :
    Measures K pending ok (fun _ => []) (f.once block) (g.once block) := by
  intro x m p rest hx hr
  have hiff := hr.mem_seen_iff (hc x) (hr.ne_some (hl x))
  unfold Measure.once
  split_ifs with hseen
  · rw [Store.once, if_pos (hiff.mp hseen)]
    exact ⟨hr, .refl⟩
  · rw [Store.once, hblock, if_neg fun hs => hseen (hiff.mpr hs)]
    exact h x m p rest hx hr

/-- The second walk drops a block that the first one leaves out. -/
theorem drop (hc : ∀ x, ¬K.counted (block x)) (hp : ∀ x, ¬K.plain (block x))
    (hl : ∀ x, ¬K.late (block x)) :
    Measures K pending (fun _ => True) (fun _ => []) (.skip : Measure β σ X) (.drop block) := by
  intro x m p rest _ hr
  unfold Store.drop
  split_ifs
  · exact ⟨hr, .refl⟩
  · exact ⟨hr.register (hc x) (fun hb => hp x (hr.todo_plain _ hb).1) (hl x), fun _ hb => hb, 0,
      by omega, (UInt32.add_zero _).symm, rfl⟩

/-- A block is counted before its contents and stored after them. -/
theorem late (h : ∀ pending, Measures K pending ok (fun _ => []) f g)
    (hc : ∀ x, K.counted (block x)) (hl : ∀ x, K.late (block x))
    (hblock : ∀ x m, block (f x m).1 = block x) (hsize : ∀ x m, size (f x m).1 = size x) :
    Measures K none ok (fun _ => []) ((Measure.addDupSize block size).seq f)
      (g.seq (.memdup block size)) := by
  intro x m p rest hx hr
  by_cases hseen : block x ∈ m.seen
  · -- it has been stored
    have hrun : (Measure.addDupSize block size).seq f x m = f x m := by
      rw [Measure.seq, Measure.addDupSize, Measuring.addDupSize, if_pos hseen]
    obtain ⟨hr', ha⟩ := h none x m p rest hx hr
    have hstored : (g (f x m).1 p).isStored (block x) = true :=
      (hr'.mem_seen_iff (hc x) (by simp)).mp (ha.1 hseen)
    rw [hrun, Store.seq, Store.memdup, Storing.memdup, hblock, if_pos hstored]
    exact ⟨hr', ha⟩
  · let m₁ : Measuring β σ := { m with seen := block x :: m.seen }
    have hrun : (Measure.addDupSize block size).seq f x m = f x (m₁.addSize (size x)) := by
      rw [Measure.seq, Measure.addDupSize, Measuring.addDupSize, if_neg hseen]
    have hr₀ : Related K (some (block x)) rest (m₁.addSize (size x)) p := by
      have := hr.count (hc x) (hl x) hseen
      exact ⟨this.seen, this.todo_plain, this.nodup, this.pending_late⟩
    obtain ⟨hr', hs, n, hn, hused, hmem⟩ := h (some (block x)) x _ p rest hx hr₀
    have hnot := (hr'.pending_late _ rfl).2
    rw [hrun, Store.seq, Store.memdup, Storing.memdup, hblock, if_neg (by simp [hnot]), hsize]
    have hd := hr'.deliver (hc x) (a := (g (f x (m₁.addSize (size x))).1 p).mem)
    refine ⟨⟨hd.seen, hd.todo_plain, hd.nodup, hd.pending_late⟩, ?_, aligned (size x) + n,
      Nat.dvd_add (dvd_aligned _) hn, ?_, ?_⟩
    · exact fun b hb => hs (List.mem_cons_of_mem _ hb)
    · rw [hused, UInt32.ofNat_add, ← UInt32.add_assoc]
      rfl
    · change (g (f x (m₁.addSize (size x))).1 p).mem + aligned (size x) = _
      rw [hmem]
      omega

end Measures

end ZendOpcache
