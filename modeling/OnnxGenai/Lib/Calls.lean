import Mathlib

/-!
# Programs that call a server

A program that works on its own data and, now and then, calls a server it shares with other
programs: it is `done`, or it makes a call and goes on with the answer. Such a program says
nothing about the server, so one and the same program can be run against scripted answers
(`answered`), verified against a `Contract` on the calls (`Meets`), and interleaved, call by
call, with other programs that share one server (`Shared`).

A contract speaks about a ghost value that each program owns, such as what it has taken from
the server and not given back. The rule `Accounts.turn` says that if the server keeps a relation
to the ghost values of all programs, and each program meets the contract, then a call of any
of them keeps both.
-/

namespace OnnxGenai.Lib

/-- A program that makes calls `Op`, answered in `Ans`, and ends with an `α`. -/
inductive Calls (Op : Type) (Ans : Op → Type) (α : Type) where
  | done (a : α)
  | call (op : Op) (k : Ans op → Calls Op Ans α)

namespace Calls

variable {Op : Type} {Ans : Op → Type} {α β G : Type}

/-- Go on with the result of a program. -/
def bind : Calls Op Ans α → (α → Calls Op Ans β) → Calls Op Ans β
  | done a, f => f a
  | call op k, f => call op fun ans => (k ans).bind f

instance : Monad (Calls Op Ans) where
  pure := done
  bind := bind

/-- A single call. -/
def perform (op : Op) : Calls Op Ans (Ans op) := call op done

variable {p : Calls Op Ans α} {f : α → Calls Op Ans β}

theorem bind_congr_fun {f' : α → Calls Op Ans β} (h : ∀ a, f a = f' a) : (p >>= f) = (p >>= f') := by
  rw [funext h]

/-! ### Scripted answers -/

/-- The result when the `n`-th call and those after it are answered by `answers`. -/
def answeredFrom (answers : ℕ → (op : Op) → Ans op) : ℕ → Calls Op Ans α → α
  | _, done a => a
  | n, call op k => answeredFrom answers (n + 1) (k (answers n op))

/-- The result under scripted answers. -/
def answered (answers : ℕ → (op : Op) → Ans op) (p : Calls Op Ans α) : α := answeredFrom answers 0 p

/-- Answers that do not depend on when the call is made. -/
theorem answeredFrom_const (answer : (op : Op) → Ans op) (p : Calls Op Ans α) (m n : ℕ) :
    answeredFrom (fun _ => answer) m p = answeredFrom (fun _ => answer) n p := by
  induction p generalizing m n with
  | done a => rfl
  | call op k ih => exact ih _ _ _

theorem answered_const_bind (answer : (op : Op) → Ans op) (p : Calls Op Ans α) (f : α → Calls Op Ans β) :
    (p >>= f).answered (fun _ => answer) = (f (p.answered fun _ => answer)).answered fun _ => answer := by
  have hbind : ∀ n, answeredFrom (fun _ => answer) n (p >>= f) =
      answeredFrom (fun _ => answer) 0 (f (answeredFrom (fun _ => answer) n p)) := by
    induction p with
    | done a => exact fun n => answeredFrom_const answer (f a) n 0
    | call op k ih => exact fun n => ih _ (n + 1)
  exact hbind 0

/-! ### Contracts -/

/-- What a call requires of the ghost value, and what an answer can make of it. -/
structure Contract (Op : Type) (Ans : Op → Type) (G : Type) where
  pre : G → Op → Prop
  post : (g : G) → (op : Op) → Ans op → G → Prop

/-- A program meets a contract from `g`: it makes calls that the contract allows, and, whatever
the answers are, ends in `Q`. -/
def Meets (c : Contract Op Ans G) : Calls Op Ans α → G → (α → G → Prop) → Prop
  | done a, g, Q => Q a g
  | call op k, g, Q => c.pre g op ∧ ∀ ans g', c.post g op ans g' → Meets c (k ans) g' Q

variable {c : Contract Op Ans G} {g : G}

theorem Meets.mono {Q Q' : α → G → Prop} (h : Meets c p g Q) (hQ : ∀ a g, Q a g → Q' a g) : Meets c p g Q' := by
  induction p generalizing g with
  | done a => exact hQ a g h
  | call op k ih => exact ⟨h.1, fun ans g' hpost => ih ans (h.2 ans g' hpost)⟩

/-- Sequencing. -/
theorem Meets.bind {Q : β → G → Prop} (h : Meets c p g fun a g' => Meets c (f a) g' Q) : Meets c (p >>= f) g Q := by
  induction p generalizing g with
  | done a => exact h
  | call op k ih => exact ⟨h.1, fun ans g' hpost => ih ans (h.2 ans g' hpost)⟩

/-- A single call. -/
theorem Meets.perform {op : Op} {Q : Ans op → G → Prop} (hpre : c.pre g op)
    (hpost : ∀ ans g', c.post g op ans g' → Q ans g') : Meets c (perform op) g Q :=
  ⟨hpre, hpost⟩

/-- The contract that says nothing. -/
def anyContract (Op : Type) (Ans : Op → Type) : Contract Op Ans Unit := ⟨fun _ _ => True, fun _ _ _ _ => True⟩

/-- Whatever the answers are, the program ends in `Q`. -/
def Every (p : Calls Op Ans α) (Q : α → Prop) : Prop := Meets (anyContract Op Ans) p () fun a _ => Q a

namespace Every

variable {Q : α → Prop}

theorem done {a : α} (h : Q a) : Every (Calls.done a : Calls Op Ans α) Q := h

theorem mono {Q' : α → Prop} (h : Every p Q) (hQ : ∀ a, Q a → Q' a) : Every p Q' :=
  Meets.mono h fun a _ => hQ a

theorem bind {Q : β → Prop} (h : Every p fun a => Every (f a) Q) :
    Every (p >>= f) Q := Meets.bind h

theorem perform {op : Op} {Q : Ans op → Prop} (h : ∀ ans, Q ans) : Every (Calls.perform op : Calls Op Ans _) Q :=
  Meets.perform trivial fun ans _ _ => h ans

theorem and {Q' : α → Prop} (h : Every p Q) (h' : Every p Q') : Every p fun a => Q a ∧ Q' a := by
  induction p with
  | done a => exact ⟨h, h'⟩
  | call op k ih => exact ⟨trivial, fun ans g' hpost => ih ans (h.2 ans g' hpost) (h'.2 ans g' hpost)⟩

/-- What holds whatever the answers are holds for scripted ones. -/
theorem answeredFrom (h : Every p Q) (answers : ℕ → (op : Op) → Ans op) (n : ℕ) :
    Q (Calls.answeredFrom answers n p) := by
  induction p generalizing n with
  | done a => exact h
  | call op k ih => exact ih _ (h.2 (answers n op) () trivial) (n + 1)

theorem answered (h : Every p Q) (answers : ℕ → (op : Op) → Ans op) :
    Q (p.answered answers) := h.answeredFrom answers 0

end Every

/-! ### Sharing a server -/

/-- Programs, one for each `i`, that share a server. A program that is `done` is idle: it is
the state the client is in between its operations. -/
structure Shared (Op : Type) (Ans : Op → Type) (ι σ S : Type) where
  server : σ
  clients : ι → Calls Op Ans S

namespace Shared

variable {ι σ S : Type} [DecidableEq ι]

/-- The next call of client `i`, if it is not idle, is served. -/
def turn (serve : σ → (op : Op) → Ans op × σ) (w : Shared Op Ans ι σ S) (i : ι) : Shared Op Ans ι σ S :=
  match w.clients i with
  | done _ => w
  | call op k =>
    let (ans, server) := serve w.server op
    ⟨server, Function.update w.clients i (k ans)⟩

/-- Client `i`, if it is idle, starts an operation. -/
def start (operation : S → Calls Op Ans S) (w : Shared Op Ans ι σ S) (i : ι) : Shared Op Ans ι σ S :=
  match w.clients i with
  | done s => ⟨w.server, Function.update w.clients i (operation s)⟩
  | call _ _ => w

/-- The server is related to the ghost values of the clients, each of which meets the contract
and ends its operation in `Q`. -/
def Accounts (c : Contract Op Ans G) (R : σ → (ι → G) → Prop) (Q : ι → S → G → Prop) (w : Shared Op Ans ι σ S) : Prop :=
  ∃ ghost : ι → G, R w.server ghost ∧ ∀ i, Meets c (w.clients i) (ghost i) (Q i)

variable {R : σ → (ι → G) → Prop} {Q : ι → S → G → Prop} {w : Shared Op Ans ι σ S}

theorem Accounts.update (ghost : ι → G) (hclients : ∀ i, Meets c (w.clients i) (ghost i) (Q i)) (i : ι)
    {p : Calls Op Ans S} {g' : G} (hp : Meets c p g' (Q i)) (j : ι) :
    Meets c (Function.update w.clients i p j) (Function.update ghost i g' j) (Q j) := by
  by_cases hj : j = i
  · subst hj
    rw [Function.update_self, Function.update_self]
    exact hp
  · rw [Function.update_of_ne hj, Function.update_of_ne hj]
    exact hclients j

/-- **A call of any client keeps the accounts**, if the server serves every allowed call by the
contract. -/
theorem Accounts.turn {serve : σ → (op : Op) → Ans op × σ} (h : Accounts c R Q w)
    (hserve : ∀ server ghost i op, R server ghost → c.pre (ghost i) op →
      ∃ g', c.post (ghost i) op (serve server op).1 g' ∧ R (serve server op).2 (Function.update ghost i g'))
    (i : ι) : Accounts c R Q (w.turn serve i) := by
  obtain ⟨ghost, hR, hclients⟩ := h
  unfold Shared.turn
  have hi := hclients i
  cases hc : w.clients i with
  | done s => exact ⟨ghost, hR, hclients⟩
  | call op k =>
    rw [hc] at hi
    obtain ⟨g', hpost, hR'⟩ := hserve w.server ghost i op hR hi.1
    exact ⟨_, hR', Accounts.update ghost hclients i (hi.2 _ g' hpost)⟩

/-- Starting an operation keeps the accounts, if the operation meets the contract from every
state the client can be in. -/
theorem Accounts.start {operation : S → Calls Op Ans S} (h : Accounts c R Q w) {i : ι}
    (hop : ∀ s g, Q i s g → Meets c (operation s) g (Q i)) : Accounts c R Q (w.start operation i) := by
  obtain ⟨ghost, hR, hclients⟩ := h
  unfold Shared.start
  have hi := hclients i
  cases hc : w.clients i with
  | call op k => exact ⟨ghost, hR, hclients⟩
  | done s =>
    rw [hc] at hi
    refine ⟨ghost, hR, fun j => ?_⟩
    have hupdate := Accounts.update ghost hclients i (hop s (ghost i) hi) j
    rwa [Function.update_eq_self] at hupdate

/-- A change of the server that keeps the relation keeps the accounts. -/
theorem Accounts.environment (h : Accounts c R Q w) {server : σ} (hR : ∀ ghost, R w.server ghost → R server ghost) :
    Accounts c R Q { w with server := server } := by
  obtain ⟨ghost, hR', hclients⟩ := h
  exact ⟨ghost, hR ghost hR', hclients⟩

end Shared

end Calls

end OnnxGenai.Lib
