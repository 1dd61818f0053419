import LibSwim.Foundations.Program
import Mathlib.Logic.Function.Iterate

/-! # Reading and writing a buffer

A writer fills a buffer from the front and a reader consumes one; both stop with a fault when
the buffer is too short. The bytes of a format are compared with the program that writes them and
with the program that reads them back, whatever follows.
-/

namespace LibSwim.Foundations

open Program

/-- The bytes written so far and the room behind them. -/
structure Cursor where
  written : List UInt8
  room : ℕ

variable {ε α β γ : Type}

def putBytes (e : ε) (bs : List UInt8) : Program Cursor ε Unit := do
  require e (bs.length ≤ (← get).room)
  modify fun c => ⟨c.written ++ bs, c.room - bs.length⟩

def getBytes (e : ε) (n : ℕ) : Program (List UInt8) ε (List UInt8) := do
  let bs ← get
  require e (n ≤ bs.length)
  modify fun bs => bs.drop n
  return bs.take n

/-- The results of running a program `n` times. -/
def repeatM {σ : Type} (m : Program σ ε α) : ℕ → Program σ ε (List α)
  | 0 => return []
  | n + 1 => do
    let a ← m
    let as ← repeatM m n
    return a :: as

/-- Given the room for them, the program writes exactly the bytes `bs`. -/
def Writes (m : Program Cursor ε Unit) (bs : List UInt8) : Prop :=
  ∀ w room, bs.length ≤ room → exec m ⟨w, room⟩ = (.ok (), ⟨w ++ bs, room - bs.length⟩)

/-- The program consumes the bytes `bs` in front of any others and returns `a`. -/
def Reads (m : Program (List UInt8) ε α) (bs : List UInt8) (a : α) : Prop :=
  ∀ rest, exec m (bs ++ rest) = (.ok a, rest)

section

variable {m m' : Program Cursor ε Unit} {bs bs' : List UInt8}

theorem writes_pure : Writes (pure () : Program Cursor ε Unit) [] := fun w room _ => by simp

theorem writes_putBytes (e : ε) (bs : List UInt8) : Writes (putBytes e bs) bs := by
  intro w room hroom
  simp only [putBytes, require, exec_bind, exec_get, if_pos hroom, exec_pure, exec_modify]

theorem Writes.seq (h : Writes m bs) (h' : Writes m' bs') :
    Writes (m >>= fun _ => m') (bs ++ bs') := by
  intro w room hroom
  rw [List.length_append] at hroom
  rw [exec_bind_ok (h w room (by omega)), h' _ _ (by omega), List.append_assoc,
    List.length_append, Nat.sub_sub]

theorem Writes.forM {body : γ → Program Cursor ε PUnit} {enc : γ → List UInt8} {xs : List γ}
    (h : ∀ x ∈ xs, Writes (body x) (enc x)) : Writes (forM xs body) (xs.flatMap enc) := by
  induction xs with
  | nil => exact writes_pure
  | cons x xs ih =>
    rw [List.flatMap_cons]
    exact (h x (by simp)).seq (ih fun y hy => h y (by simp [hy]))

end

section

variable {m : Program (List UInt8) ε α} {f : α → Program (List UInt8) ε β} {bs bs' : List UInt8}
variable {a : α} {b : β}

theorem reads_pure (a : α) : Reads (pure a : Program (List UInt8) ε α) [] a := fun _ => rfl

theorem reads_getBytes (e : ε) {n : ℕ} (h : bs.length = n) : Reads (getBytes e n) bs bs := by
  intro rest
  subst h
  simp only [getBytes, require, exec_bind, exec_get, List.length_append, Nat.le_add_right, if_true,
    exec_pure, exec_modify, List.drop_left, List.take_left]

theorem Reads.bind (h : Reads m bs a) (h' : Reads (f a) bs' b) : Reads (m >>= f) (bs ++ bs') b := by
  intro rest
  rw [List.append_assoc, exec_bind_ok (h _), h']

/-- A last step that consumes nothing. -/
theorem Reads.bind_pure (h : Reads m bs a) (h' : Reads (f a) [] b) : Reads (m >>= f) bs b := by
  simpa using h.bind h'

theorem Reads.repeatM {enc : α → List UInt8} {as : List α} (h : ∀ a ∈ as, Reads m (enc a) a) :
    Reads (repeatM m as.length) (as.flatMap enc) as := by
  induction as with
  | nil => exact reads_pure []
  | cons a as ih =>
    rw [List.flatMap_cons]
    exact (h a (by simp)).bind ((ih fun x hx => h x (by simp [hx])).bind_pure (reads_pure _))

/-- A reader that returns `value bs` and leaves `next bs` on the buffers `bs` with `fits bs`, and
stops with a fault on every other. -/
def Parses (m : Program (List UInt8) ε α) (fits : List UInt8 → Prop) (value : List UInt8 → α)
    (next : List UInt8 → List UInt8) : Prop :=
  ∀ bs post, wp m post (fun _ _ => False) bs ↔ fits bs ∧ post (value bs) (next bs)

theorem parses_getBytes (e : ε) (n : ℕ) :
    Parses (getBytes e n) (fun bs => n ≤ bs.length) (fun bs => bs.take n) (fun bs => bs.drop n) := by
  intro bs post
  simp only [getBytes, wp_bind, wp_get, wp_require, wp_modify, wp_pure, if_false_right]

/-- A repeated reader takes the buffer apart piece by piece. -/
theorem Parses.repeatM {fits : List UInt8 → Prop} {value : List UInt8 → α}
    {next : List UInt8 → List UInt8} (h : Parses m fits value next) (n : ℕ) :
    Parses (repeatM m n) (fun bs => ∀ i < n, fits (next^[i] bs))
      (fun bs => (List.range n).map fun i => value (next^[i] bs)) (fun bs => next^[n] bs) := by
  induction n with
  | zero =>
    intro bs post
    simp [Foundations.repeatM]
  | succ n ih =>
    intro bs post
    rw [Foundations.repeatM, wp_bind, h]
    simp only [wp_bind, wp_pure]
    rw [ih, Nat.forall_lt_succ_left, List.range_succ_eq_map]
    simp [Function.comp_def, and_assoc]

/-- The bytes of the value in front of a buffer are those in front of the next one. -/
def Restores (fits : List UInt8 → Prop) (value : List UInt8 → α)
    (next : List UInt8 → List UInt8) (enc : α → List UInt8) : Prop :=
  ∀ bs, fits bs → enc (value bs) ++ next bs = bs

theorem Restores.iterate {fits : List UInt8 → Prop} {value : List UInt8 → α}
    {next : List UInt8 → List UInt8} {enc : α → List UInt8} (h : Restores fits value next enc)
    {n : ℕ} (hfits : ∀ i < n, fits (next^[i] bs)) :
    ((List.range n).map fun i => value (next^[i] bs)).flatMap enc ++ next^[n] bs = bs := by
  induction n with
  | zero => rfl
  | succ n ih =>
    rw [List.range_succ, List.map_append, List.flatMap_append, List.append_assoc,
      Function.iterate_succ_apply']
    simp only [List.map_cons, List.map_nil, List.flatMap_cons, List.flatMap_nil, List.append_nil]
    rw [h _ (hfits n (by omega))]
    exact ih fun i hi => hfits i (by omega)

/-- What a reader makes of a buffer depends on the bytes it consumes and on how many it leaves,
but not on which these are. -/
def Scans (m : Program (List UInt8) ε α) : Prop :=
  ∀ bs a rest, exec m bs = (.ok a, rest) → ∃ read, bs = read ++ rest ∧
    ∀ rest', rest'.length = rest.length → exec m (read ++ rest') = (.ok a, rest')

theorem scans_pure (a : α) : Scans (pure a : Program (List UInt8) ε α) := by
  rintro bs _ _ ⟨⟩
  exact ⟨[], rfl, fun rest' _ => rfl⟩

theorem scans_getBytes (e : ε) (n : ℕ) : Scans (getBytes e n) := by
  intro bs a rest h
  simp only [getBytes, exec_bind_ok (exec_get _), exec_bind_eq_ok, exec_require_eq_ok] at h
  obtain ⟨_, _, ⟨hn, rfl⟩, _, _, ⟨⟩, ⟨⟩⟩ := h
  exact ⟨bs.take n, (List.take_append_drop n bs).symm,
    fun rest' _ => reads_getBytes e (List.length_take_of_le hn) rest'⟩

theorem scans_require (e : ε) (c : Prop) [Decidable c] :
    Scans (require e c : Program (List UInt8) ε Unit) := by
  intro bs a rest h
  obtain ⟨hc, rfl⟩ := exec_require_eq_ok.mp h
  exact ⟨[], rfl, fun rest' _ => exec_require e hc rest'⟩

theorem Scans.bind (h : Scans m) (h' : ∀ a, Scans (f a)) : Scans (m >>= f) := by
  intro bs b rest hexec
  obtain ⟨a, mid, hm, hf⟩ := exec_bind_eq_ok.mp hexec
  obtain ⟨read', rfl, hread'⟩ := h' a _ _ _ hf
  obtain ⟨read, rfl, hread⟩ := h _ _ _ hm
  refine ⟨read ++ read', (List.append_assoc _ _ _).symm, fun rest' hrest => ?_⟩
  rw [List.append_assoc, exec_bind_ok (hread _ (by simp [hrest])), hread' _ hrest]

/-- A reader may look at how many bytes are left. -/
theorem scans_get {g : List UInt8 → Program (List UInt8) ε α} (h : ∀ bs, Scans (g bs))
    (hg : ∀ bs bs', bs.length = bs'.length → g bs = g bs') : Scans (get >>= g) := by
  intro bs a rest hexec
  rw [exec_bind_ok (exec_get _)] at hexec
  obtain ⟨read, rfl, hread⟩ := h _ _ _ _ hexec
  refine ⟨read, rfl, fun rest' hrest => ?_⟩
  rw [exec_bind_ok (exec_get _), hg _ (read ++ rest) (by simp [hrest]), hread rest' hrest]

theorem Scans.repeatM (h : Scans m) (n : ℕ) : Scans (repeatM m n) := by
  induction n with
  | zero => exact scans_pure []
  | succ n ih => exact h.bind fun a => ih.bind fun as => scans_pure (a :: as)

end
end LibSwim.Foundations
