import BinaryLayout.Proofs.Frame.Load
import BinaryLayout.Proofs.Locality.Read
import BinaryLayout.Proofs.Placement.Load
import BinaryLayout.Proofs.Source.Given

/-!
# The place that an error names

An atom is filled: it is loaded, or it gets its default content. A container fills its parts one after
another, and when a part fails so does the container, which keeps what it has so far. So the place that
failed is found in what is left: it is the atom itself, or the last part of the atom, and so on down. One
kind of part is not kept, the element of a terminated array that ran out of bytes. At the place that
failed the atom's own reading, its default content, the rule of a layout or of an extent went wrong.

What an atom is loaded from follows from where it is. A field that has to take so many bytes is loaded
through a window, and so are the elements of a block array; the members of a union are loaded from its
bytes. So a place that failed to read says which bytes it read, and whose: the error is not that of some
other read. A container that fails itself has filled all of its parts so far, and it is not ready, or it is
ready and the bytes after its content are not there. So it is never blamed for what went wrong in a part.

An error is right when its path leads to that place, each container on the way adding the segment of its
part once. The text of the path counts, since the root of a host of bits has no name. A container of bits
that gets its default content passes on the errors of its parts as they are, without a segment; its parts
are unnamed.

## Main definitions

* `Place.viewIn`: what an atom is loaded from.
* `Task`, `Reached`: what is done to an atom, and the places that it got to last.
* `Place.Fails`: what goes wrong at an atom itself.
* `Place.IsUnnamed`: the places that errors do not name.
* `Error.Traced`, `Outcome.Blames`: the error comes from a place that failed, and its path leads there.

## Main statements

* `Error.Traced.own`: the error of an atom itself.
* `Error.Traced.within`, `Error.Traced.dropped`, `Error.Traced.hosted`, `Error.Traced.passed`: the error of
  a part, seen from its container.
* `Outcome.Completes.within`: the same, of a part that was just filled.
-/

namespace BinaryLayout

variable {κ : Type}

/-! ## What an atom is loaded from -/

/-- What a part of an atom is loaded from, when the atom is loaded from the view. -/
def Frame.viewOf (f : Frame κ) (part : Info κ) (v : View) : View :=
  match f.info.layout with
  | .bytes (.record ..) =>
    match part.extent? with
    | some extent => v.window (part.offset + extent) 0
    | none => v
  | .bytes (.array _ (.block extent)) => v.window (f.info.offset + extent) 0
  | .bytes (.union ..) =>
    match f.content with
    | .overlay backing => View.rewound (.ofBytes backing f.info.offset, [])
    | _ => v
  | _ => v

namespace Place

variable (base : View)

/-- What an atom inside the frames is loaded from, when the outermost one is loaded from `base`. -/
def viewIn : List (Frame κ) → Info κ → View
  | [], _ => base
  | f :: frames, part => f.viewOf part (viewIn frames f.info)

/-- What the atom is loaded from. -/
def view (q : Place κ) : View := viewIn base q.frames q.atom.info

/-- What the container of the atom is loaded from. -/
def outerView (q : Place κ) : View :=
  match q.frames with
  | [] => base
  | f :: frames => viewIn base frames f.info

end Place

/-- The order in which the bits inside the frames are packed. -/
def Frame.order? (frames : List (Frame κ)) : Option ByteOrder :=
  frames.findSome? fun f => f.info.layout.bitOrder?

/-- The next bits are those at the position, in the bytes of the view. Once these have ended there are no
bits at all. -/
structure BitLoadState.Reads (v : View) (order? : Option ByteOrder) (position : Nat) (s : BitLoadState κ) :
    Prop where
  view : s.base.view.rewound = v
  order : order? = some s.order
  place : s.base.view.StandsAt s.next ∧ 8 * s.next = position + s.pending.length ∨ s.pending = [] ∧ s.Dry

/-! ## What is left -/

/-- What is done to an atom: its bytes are read, or it gets its default content. -/
inductive Task where
  | load
  | allocate

/-- What is done to the parts of an atom. Members of a union are always read from its bytes, and a root
without bits is never read. -/
def Task.onParts (task : Task) : AtomLayout κ → Task
  | .bytes (.union ..) => .load
  | .bytes (.bits root _) => if root.staticBits = some 0 then .allocate else task
  | _ => task

namespace Atom

/-- The atom was filled, and it takes the bytes that it has to. -/
structure Complete (a : Atom κ) : Prop where
  ready : a.info.initialized = true
  extent : ∀ extent ∈ a.info.extent?, extent ≤ a.size

/-- The atom is not filled yet, and its parts so far are. -/
structure IsOpen (a : Atom κ) : Prop where
  unready : a.info.initialized = false
  parts : ∀ part ∈ a.parts, part.Complete

end Atom

/-- Where the next part goes. -/
def Frame.next (f : Frame κ) : Nat :=
  match f.left with
  | [] => f.info.offset
  | last :: _ => satAdd last.info.offset (last.step f.info.layout.isBits)

theorem Atom.IsBlank.isOpen {a : Atom κ} (h : a.IsBlank) : a.IsOpen := by
  refine ⟨(isBlank_iff.1 h).2.1, ?_⟩
  rw [h.parts]
  nofun

/-- The array gives up the next element, which ran out of bytes. -/
inductive Frame.GivesUp (env : Env κ) (base : View) (frames : List (Frame κ)) (f : Frame κ) : Atom κ → Prop
  | bytes {element : Layout κ} {rule : κ} {id : Nat} {blank : Atom κ} {s : LoadState κ} {out : Outcome κ}
      {e : Error} (hlayout : f.info.layout = .bytes (.array element (.terminated rule)))
      (hblank : blank = .blank id (toString f.left.length) (.bytes element) f.next)
      (hview : s.view.rewound = Place.viewIn base (f :: frames) blank.info)
      (hout : (load env (Layout.nestingLimit - (frames.length + 1)) (f :: frames) blank s).1 = out)
      (herror : out.error? = some e) (hconsume : e.isConsume = true) : GivesUp env base frames f out.atom
  | bits {element : BitLayout κ} {rule : κ} {id position : Nat} {blank : Atom κ} {s : BitLoadState κ}
      {out : Outcome κ} {e : Error} (hlayout : f.info.layout = .bits (.array element (.terminated rule)))
      (hblank : blank = .blank id (toString f.left.length) (.bits element) f.next)
      (hposition : f.next = satAdd position 0)
      (hreads : s.Reads (Place.viewIn base (f :: frames) blank.info) (Frame.order? (f :: frames)) position)
      (hout : (loadBits env (Layout.nestingLimit - (frames.length + 1)) (f :: frames) blank s).1 = out)
      (herror : out.error? = some e) (hconsume : e.isConsume = true) : GivesUp env base frames f out.atom

/-- The place that was filled last, at or below a place, with what was done there. -/
inductive Reached (env : Env κ) (base : View) : Task → Place κ → Task → Place κ → Prop
  | here {task : Task} {p : Place κ} : Reached env base task p task p
  | last {task t : Task} {f : Frame κ} {part : Atom κ} {frames : List (Frame κ)} {q : Place κ}
      (hlast : f.right = []) (hbits : f.info.layout.isBits = true → part.isBits = true)
      (hpart : Reached env base (task.onParts f.info.layout) ⟨part, f :: frames⟩ t q) :
      Reached env base task ⟨f.plug part, frames⟩ t q
  /-- The element after those that were kept. -/
  | dropped {t : Task} {f : Frame κ} {part : Atom κ} {frames : List (Frame κ)} {q : Place κ}
      (hlast : f.right = []) (hdrops : f.GivesUp env base frames part)
      (hpart : Reached env base .load ⟨part, f :: frames⟩ t q) :
      Reached env base .load ⟨f.close, frames⟩ t q

namespace Place

/-- The record around the atom has a rule for its extent, which gave so many bytes. -/
def IsForced (q : Place κ) (extent : Nat) : Prop :=
  q.atom.info.extent? = some extent ∧ ∃ f ∈ q.frames.head?, ∃ name fields field,
    f.info.layout = .bytes (.record name fields) ∧ fields[f.left.length]? = some field
      ∧ field.extent?.isSome = true

/-- What goes wrong at an atom itself while a task is done to it, when the outermost atom is loaded from
`base`. A path from the atom onwards belongs to the rule that failed: the name of a field which is not
there for want of a layout, and the path that the rule gave its error. -/
inductive Fails (env : Env κ) (base : View) (q : Place κ) : Task → Path → Problem → Prop
  | leaf {layout : Layout κ} {s : LoadState κ} {problem : Problem}
      (hlayout : q.atom.info.layout = .bytes layout) (hblank : q.atom.IsBlank)
      (hview : s.view.rewound = q.view base)
      (hread : (LoadM.readLeaf env.config q.frames layout q.atom.info.offset s).1
        = .error (.located [] problem)) : Fails env base q .load [] problem
  | default {layout : Layout κ} {problem : Problem} (hlayout : q.atom.info.layout = .bytes layout)
      (hblank : q.atom.IsBlank)
      (hdefault : layout.defaultBytes env.config q.frames q.atom.info.offset
        = .error (.located [] problem)) : Fails env base q .allocate [] problem
  | union {name : String} {members : List (String × Layout κ)} {size : Nat} {s : LoadState κ}
      {problem : Problem} (hlayout : q.atom.info.layout = .bytes (.union name members size))
      (hblank : q.atom.IsBlank) (hview : s.view.rewound = q.view base)
      (hread : (LoadM.readAt q.atom.info.offset size s).1 = .error (.located [] problem)) :
      Fails env base q .load [] problem
  /-- The bytes of the atom end past the last offset. -/
  | size {problem : Problem} (hready : q.atom.Complete)
      (hspan : spanEnd q.atom.info.offset q.atom.size = .error (.located [] problem)) :
      Fails env base q .load [] problem
  /-- The bytes that the atom has to take end past the last offset. -/
  | room {extent : Nat} {problem : Problem} (hopen : q.atom.IsOpen) (hempty : q.atom.parts = [])
      (hroom : q.IsForced extent ∨ ∃ element, q.atom.info.layout = .bytes (.array element (.block extent)))
      (hspan : spanEnd q.atom.info.offset extent = .error (.located [] problem)) :
      Fails env base q .load [] problem
  /-- The bytes after the content of a field, up to those that it has to take, are not there. -/
  | tail {extent : Nat} {s : LoadState κ} {problem : Problem} (hready : q.atom.info.initialized = true)
      (hroom : q.IsForced extent) (hview : s.view.rewound = q.outerView base)
      (hread : (LoadM.readAt (q.atom.info.offset + q.atom.contentSize) (extent - q.atom.contentSize) s).1
        = .error (.located [] problem)) : Fails env base q .load [] problem
  /-- The bytes after the elements of a block array are not there. -/
  | leftover {element : Layout κ} {extent : Nat} {s : LoadState κ} {problem : Problem}
      (hlayout : q.atom.info.layout = .bytes (.array element (.block extent))) (hopen : q.atom.IsOpen)
      (hview : s.view.rewound = q.view base)
      (hread : (LoadM.readAt (q.atom.info.offset + q.atom.contentSize) (extent - q.atom.contentSize) s).1
        = .error (.located [] problem)) : Fails env base q .load [] problem
  | elements (harray : q.atom.info.layout.isArray = true) (hopen : q.atom.IsOpen)
      (hcount : q.atom.parts.length = env.config.maxElements) :
      Fails env base q .load [] (.initialization (.elementLimit env.config.maxElements))
  | nesting {task : Task} (hdepth : q.frames.length = Layout.nestingLimit) :
      Fails env base q task [] (.initialization (.nestingLimit Layout.nestingLimit))
  | position {task : Task} {root : BitLayout κ} {order : ByteOrder} {problem : Problem}
      (hlayout : q.atom.info.layout = .bytes (.bits root order)) (hblank : q.atom.IsBlank)
      (hposition : bitPosition q.atom.info.offset = .error (.located [] problem)) :
      Fails env base q task [] problem
  /-- The bytes of a host are not there. -/
  | seek {root : BitLayout κ} {order : ByteOrder} {s : LoadState κ} {problem : Problem}
      (hlayout : q.atom.info.layout = .bytes (.bits root order))
      (hblank : ∀ part ∈ q.atom.parts, part.IsBlank) (hview : s.view.rewound = q.view base)
      (hseek : (LoadM.seekTo q.atom.info.offset 1 s).1 = .error (.located [] problem)) :
      Fails env base q .load [] problem
  | bits {bits position : Nat} {signed : Bool} {s : BitLoadState κ} {problem : Problem}
      (hlayout : q.atom.info.layout = .bits (.int bits signed)) (hblank : q.atom.IsBlank)
      (hposition : q.atom.info.offset = satAdd position 0)
      (hreads : s.Reads (q.view base) (Frame.order? q.frames) position)
      (hread : (BitLoadM.read bits s).1 = .error (.located [] problem)) : Fails env base q .load [] problem
  | rule {task : Task} {name : String} {fields : List (Field κ (Layout κ))}
      {field : Field κ (Layout κ)} {path : Path} {problem : Problem}
      (hlayout : q.atom.info.layout = .bytes (.record name fields)) (hopen : q.atom.IsOpen)
      (hfield : fields[q.atom.parts.length]? = some field)
      (hresolve : env.resolve q q.atom.parts.length field.layout = .error (.located path problem)) :
      Fails env base q task (field.name :: path) problem
  | bitRule {task : Task} {name : String} {fields : List (BitField κ (BitLayout κ))}
      {field : BitField κ (BitLayout κ)} {path : Path} {problem : Problem}
      (hlayout : q.atom.info.layout = .bits (.record name fields)) (hopen : q.atom.IsOpen)
      (hfield : fields[q.atom.parts.length]? = some field)
      (hresolve : env.resolveBits q q.atom.parts.length field.layout = .error (.located path problem)) :
      Fails env base q task (field.name :: path) problem
  /-- A field is asked for its extent before it is loaded, and after it got its default content. -/
  | extent {task : Task} {f : Frame κ} {frames : List (Frame κ)} {name : String}
      {fields : List (Field κ (Layout κ))} {field : Field κ (Layout κ)} {rule : κ} {path : Path}
      {problem : Problem} (hframes : q.frames = f :: frames)
      (hasked : match task with
        | .load => q.atom.IsBlank
        | .allocate => q.atom.info.initialized = true)
      (hnone : q.atom.info.extent? = none) (hlayout : f.info.layout = .bytes (.record name fields))
      (hfield : fields[f.left.length]? = some field) (hrule : field.extent? = some rule)
      (hextent : env.extent ⟨f.plug q.atom, frames⟩ f.left.length rule = .error (.located path problem)) :
      Fails env base q task path problem
  /-- Atoms of bits load through their host. -/
  | alone {layout : BitLayout κ} (hlayout : q.atom.info.layout = .bits layout) (houtermost : q.frames = []) :
      Fails env base q .load [] (.initialization .bitAtomAlone)
  /-- There is nothing at the address of a null pointer. -/
  | null (hnull : q.atom.info.null = true) (houtermost : q.frames = []) :
      Fails env base q .load [] .nullDereference

/-- The place is inside a container of bits that gets its default content. -/
def IsUnnamed (task : Task) (q : Place κ) : Prop :=
  task = .allocate ∧ ∃ f ∈ q.frames.head?, f.info.layout.isBits = true

end Place

/-! ## Errors -/

/-- The error comes from the place that was filled last, which failed, and its path leads there, unless the
place is unnamed. -/
def Error.Traced (env : Env κ) (base : View) (task : Task) (p : Place κ) (e : Error) : Prop :=
  ∀ path problem, e = .located path problem → ∃ t q own, Reached env base task p t q
    ∧ q.Fails env base t own problem
    ∧ (q.IsUnnamed t
      ∨ Path.text (Place.pathOnto path p.atom.info.name p.frames) = Path.text (q.path ++ own))

/-- What is left stands where the given info says, with the same extent. It is ready, or the error comes
from a place that failed. -/
structure Outcome.Blames (env : Env κ) (base : View) (task : Task) (frames : List (Frame κ)) (info : Info κ)
    (out : Outcome κ) : Prop where
  site : out.atom.info.site = info.site
  extent : out.atom.info.extent? = info.extent?
  ready : out.error? = none → out.atom.info.initialized = true
  traced : ∀ e, out.error? = some e → e.Traced env base task ⟨out.atom, frames⟩

/-- What is left stands where the given info says. It takes the bytes that it has to, or the error comes
from a place that failed. -/
structure Outcome.Completes (env : Env κ) (base : View) (task : Task) (frames : List (Frame κ))
    (info : Info κ) (out : Outcome κ) : Prop where
  site : out.atom.info.site = info.site
  complete : out.error? = none → out.atom.Complete
  traced : ∀ e, out.error? = some e → e.Traced env base task ⟨out.atom, frames⟩

/-- The error names no atom yet. -/
def Error.Bare (e : Error) : Prop := ∀ path problem, e = .located path problem → path = []

namespace Error.Traced

variable {env : Env κ} {base : View} {task : Task} {frames : List (Frame κ)} {e : Error}

/-- The error of an atom itself. -/
theorem own {p : Place κ} (h : ∀ path problem, e = .located path problem → p.Fails env base task path problem) :
    e.Traced env base task p := by
  intro path problem he
  refine ⟨task, p, path, .here, h path problem he, .inr ?_⟩
  rw [Place.pathOnto_eq]
  rfl

/-- The error of an atom itself that names no atom yet. -/
theorem bare {p : Place κ} (hbare : e.Bare)
    (h : ∀ problem, e = .located [] problem → p.Fails env base task [] problem) : e.Traced env base task p := by
  refine own fun path problem he => ?_
  obtain rfl := hbare path problem he
  exact h problem he

section Part

variable {t : Task} {f : Frame κ} {part : Atom κ} (hlast : f.right = [])

include hlast

/-- The error of a part that was kept. -/
theorem within (htask : task.onParts f.info.layout = t) (h : e.Traced env base t ⟨part, f :: frames⟩)
    (hbits : part.isBits = f.info.layout.isBits) {segment : String}
    (hsegment : Place.segment f.info part.info.name = segment) :
    (e.within [segment]).Traced env base task ⟨f.plug part, frames⟩ := by
  subst htask hsegment
  intro path problem he
  cases e with
  | schema fault => cases he
  | located inner cause =>
    cases he
    obtain ⟨t, q, own, hreached, hfails, hpath⟩ := h inner problem rfl
    exact ⟨t, q, own, .last hlast hbits.trans hreached, hfails, hpath⟩

/-- The error of an element that was given up. -/
theorem dropped (h : e.Traced env base .load ⟨part, f :: frames⟩) (hdrops : f.GivesUp env base frames part)
    {segment : String} (hsegment : Place.segment f.info part.info.name = segment) :
    (e.within [segment]).Traced env base .load ⟨f.close, frames⟩ := by
  subst hsegment
  intro path problem he
  cases e with
  | schema fault => cases he
  | located inner cause =>
    cases he
    obtain ⟨t, q, own, hreached, hfails, hpath⟩ := h inner problem rfl
    exact ⟨t, q, own, .dropped hlast hdrops hreached, hfails, hpath⟩

/-- The error of a root of bits, seen from its host. The root adds nothing to the path. -/
theorem hosted (htask : task.onParts f.info.layout = t) (h : e.Traced env base t ⟨part, f :: frames⟩)
    {root : BitLayout κ} {order : ByteOrder} (hlayout : f.info.layout = .bytes (.bits root order))
    (hname : part.info.name = "") : e.Traced env base task ⟨f.plug part, frames⟩ := by
  subst htask
  intro path problem he
  obtain ⟨t, q, own, hreached, hfails, hpath⟩ := h path problem he
  have hbits : f.info.layout.isBits = true → part.isBits = true := by
    rw [hlayout]
    nofun
  refine ⟨t, q, own, .last hlast hbits hreached, hfails, hpath.imp_right fun htext => ?_⟩
  have hsegment : Place.segment f.info part.info.name = "" := by
    rw [Place.segment, hlayout, hname]
    rfl
  rw [← htext, Place.pathOnto, hsegment, Place.pathOnto_eq, Place.pathOnto_eq ("" :: path),
    Path.text_append, Path.text_append, Path.text_cons, Path.join_empty_left]
  rfl

end Part

end Error.Traced

/-! ## Parts whose errors are passed on as they are -/

/-- What is done to the parts of an atom of bits is what is done to the atom. -/
theorem Task.onParts_of_isBits (task : Task) {layout : AtomLayout κ} (h : layout.isBits = true) :
    task.onParts layout = task := by
  cases layout with
  | bits layout => rfl
  | bytes layout => cases h

/-- Inside a container of bits that gets its default content every place is unnamed. -/
theorem Reached.isUnnamed {env : Env κ} {base : View} {task t : Task} {p q : Place κ}
    (h : Reached env base task p t q) (htask : task = .allocate) (hbits : p.atom.isBits = true)
    (hframe : ∃ f ∈ p.frames.head?, f.info.layout.isBits = true) : q.IsUnnamed t := by
  induction h with
  | here => exact ⟨htask, hframe⟩
  | @last task t f part frames q hlast hparts hpart ih =>
    have hlayout : f.info.layout.isBits = true := hbits
    refine ih ?_ (hparts hlayout) ⟨f, rfl, hlayout⟩
    rw [task.onParts_of_isBits hlayout, htask]
  | dropped => cases htask

/-- The error of a part of a container of bits that gets its default content. It is passed on without the
segment of the part. -/
theorem Error.Traced.passed {env : Env κ} {base : View} {frames : List (Frame κ)} {f : Frame κ}
    {part : Atom κ} {e : Error} (hlast : f.right = []) (hbits : f.info.layout.isBits = true)
    (hpart : part.isBits = true) (h : e.Traced env base .allocate ⟨part, f :: frames⟩) :
    e.Traced env base .allocate ⟨f.plug part, frames⟩ := by
  intro path problem he
  obtain ⟨t, q, own, hreached, hfails, -⟩ := h path problem he
  have hparts : Task.onParts .allocate f.info.layout = .allocate := Task.onParts_of_isBits .allocate hbits
  refine ⟨t, q, own, .last hlast (fun _ => hpart) (by rwa [hparts]), hfails, .inl ?_⟩
  exact hreached.isUnnamed rfl hpart ⟨f, rfl, hbits⟩

/-! ## Unfinished containers -/

/-- The frame of an atom that was given so many parts, and is not ready; the next one comes after them. -/
structure Frame.Has (f : Frame κ) (count : Nat) : Prop where
  right : f.right = []
  count : f.left.length = count
  unready : f.info.initialized = false
  parts : ∀ part ∈ f.left, part.Complete

namespace Frame.Has

variable {env : Env κ} {base : View} {f : Frame κ} {index : Nat} {frames : List (Frame κ)} {name : String}
  {task : Task}

theorem start (content : Content) {a : Atom κ} (ha : a.IsBlank) : (a.fill content []).frame.Has 0 :=
  ⟨rfl, rfl, (Atom.isBlank_iff.1 ha).2.1, nofun⟩

theorem push (hf : f.Has index) {a : Atom κ} (ha : a.Complete) : (f.push a).Has (index + 1) :=
  ⟨hf.right, congrArg (· + 1) hf.count, hf.unready, List.forall_mem_cons.2 ⟨ha, hf.parts⟩⟩

theorem parts_close (hf : f.Has index) : f.close.parts.length = index := by
  rw [close, Atom.parts_node, List.reverseAux_eq, hf.right, List.append_nil, List.length_reverse,
    hf.count]

theorem isOpen (hf : f.Has index) : f.close.IsOpen := by
  refine ⟨hf.unready, ?_⟩
  rw [Frame.parts_close, hf.right, List.append_nil]
  exact fun part hpart => hf.parts part (List.mem_reverse.1 hpart)

/-- The rule of the next field failed. -/
theorem rule (hf : f.Has index) {fields : List (Field κ (Layout κ))} {field : Field κ (Layout κ)}
    {e : Error} (hlayout : f.info.layout = .bytes (.record name fields))
    (hfield : fields[index]? = some field)
    (hresolve : env.resolve ⟨f.close, frames⟩ index field.layout = .error e) :
    (e.within [field.name]).Traced env base task ⟨f.close, frames⟩ := by
  rw [← hf.parts_close] at hfield hresolve
  refine Error.Traced.own fun path problem he => ?_
  cases e with
  | schema fault => cases he
  | located inner cause =>
    cases he
    exact .rule hlayout hf.isOpen hfield hresolve

/-- The rule of the next field of bits failed. -/
theorem bitRule (hf : f.Has index) {fields : List (BitField κ (BitLayout κ))}
    {field : BitField κ (BitLayout κ)} {e : Error}
    (hlayout : f.info.layout = .bits (.record name fields)) (hfield : fields[index]? = some field)
    (hresolve : env.resolveBits ⟨f.close, frames⟩ index field.layout = .error e) :
    (e.within [field.name]).Traced env base task ⟨f.close, frames⟩ := by
  rw [← hf.parts_close] at hfield hresolve
  refine Error.Traced.own fun path problem he => ?_
  cases e with
  | schema fault => cases he
  | located inner cause =>
    cases he
    exact .bitRule hlayout hf.isOpen hfield hresolve

/-- There are as many elements as an array may have. -/
theorem elementLimit (hf : f.Has index) (harray : f.info.layout.isArray = true)
    (hcount : index = env.config.maxElements) :
    (Error.initialization (.elementLimit env.config.maxElements)).Traced env base .load ⟨f.close, frames⟩ := by
  refine Error.Traced.own fun path problem he => ?_
  cases he
  exact .elements harray hf.isOpen (hf.parts_close.trans hcount)

end Frame.Has

/-! ## Outcomes -/

namespace Outcome

variable {env : Env κ} {base : View} {task : Task} {frames : List (Frame κ)} {info : Info κ} {a : Atom κ}
  {out : Outcome κ}

/-- An atom that was filled. -/
theorem blames_none (hsite : a.info.site = info.site) (hextent : a.info.extent? = info.extent?)
    (hready : a.info.initialized = true) : Blames env base task frames info ⟨a, none⟩ :=
  ⟨hsite, hextent, fun _ => hready, nofun⟩

theorem blames_some {e : Error} (h : e.Traced env base task ⟨a, frames⟩) (hsite : a.info.site = info.site)
    (hextent : a.info.extent? = info.extent?) : Blames env base task frames info ⟨a, some e⟩ :=
  ⟨hsite, hextent, nofun, fun _ he => by cases he; exact h⟩

/-- The atom of a frame that is ready. -/
theorem blames_ready (f : Frame κ) : Blames env base task frames f.info ⟨f.close.ready, none⟩ :=
  ⟨Atom.site_ready f.close, rfl, fun _ => rfl, nofun⟩

/-- The atom of a frame that was given up. -/
theorem blames_close {f : Frame κ} {e : Error} (h : e.Traced env base task ⟨f.close, frames⟩) :
    Blames env base task frames f.info ⟨f.close, some e⟩ :=
  blames_some h rfl rfl

theorem Blames.cleared (h : out.Blames env base task frames a.cleared.info) :
    out.Blames env base task frames a.info :=
  ⟨h.site.trans (Atom.site_cleared a), h.extent.trans (by cases a; rfl), h.ready, h.traced⟩

/-- Layouts are nested too deep. -/
theorem blames_nesting (hdepth : frames.length = Layout.nestingLimit) (a : Atom κ) :
    Blames env base task frames a.info ⟨a, some (.initialization (.nestingLimit Layout.nestingLimit))⟩ :=
  blames_some (.own fun _ _ he => by cases he; exact .nesting hdepth) rfl rfl

/-- An atom without an extent takes what it takes. -/
theorem Blames.completes (h : out.Blames env base task frames info) (hnone : info.extent? = none) :
    out.Completes env base task frames info := by
  refine ⟨h.site, fun herror => ⟨h.ready herror, ?_⟩, h.traced⟩
  rw [h.extent, hnone]
  nofun

end Outcome

/-- What is done to a part in the frame, and the segment that its container adds to paths. -/
structure Frame.Adds (f : Frame κ) (task t : Task) (part : Info κ) (segment : String) : Prop where
  task : task.onParts f.info.layout = t
  bits : part.layout.isBits = f.info.layout.isBits
  segment : Place.segment f.info part.name = segment

namespace Outcome.Completes

variable {env : Env κ} {base : View} {task t : Task} {f : Frame κ} {frames : List (Frame κ)} {blank : Info κ}
  {out : Outcome κ} {segment : String} {e : Error}

/-- The error of a part that was just filled. -/
theorem within (h : out.Completes env base t (f :: frames) blank) (hlast : f.right = [])
    (hadds : f.Adds task t blank segment) (herror : out.error? = some e) :
    (e.within [segment]).Traced env base task ⟨f.plug out.atom, frames⟩ := by
  refine (h.traced e herror).within hlast hadds.task ?_ ?_
  · rw [Atom.isBits, Info.layout_of_site h.site, hadds.bits]
  · rw [Info.name_of_site h.site, hadds.segment]

/-- The bytes of a part that was just filled end past the last offset. -/
theorem oversized (h : out.Completes env base .load (f :: frames) blank) (hlast : f.right = [])
    (hadds : f.Adds .load .load blank segment) (herror : out.error? = none) (hbare : e.Bare)
    (hspan : spanEnd blank.offset out.atom.size = .error e) :
    (e.within [segment]).Traced env base .load ⟨f.plug out.atom, frames⟩ := by
  have hown : e.Traced env base .load ⟨out.atom, f :: frames⟩ := by
    refine .bare hbare fun problem he => .size (h.complete herror) ?_
    rw [Info.offset_of_site h.site, hspan, he]
  refine hown.within hlast hadds.task ?_ ?_
  · rw [Atom.isBits, Info.layout_of_site h.site, hadds.bits]
  · rw [Info.name_of_site h.site, hadds.segment]

end Outcome.Completes

/-! ## New parts -/

/-- A new atom. -/
theorem Ends.spawn_blank (name : String) (layout : AtomLayout κ) (offset : Nat) (l : Ledger κ) :
    Ends (LedgerM.spawn name layout offset) l fun a _ => ∃ id, a = .blank id name layout offset :=
  ⟨_, rfl⟩

/-- A new atom, while others are loaded. -/
theorem LoadM.spawn_blank (name : String) (layout : AtomLayout κ) (offset : Nat) (s : LoadState κ) :
    Ends (ofLedger (LedgerM.spawn name layout offset)) s fun a t =>
      (∃ id, a = .blank id name layout offset) ∧ t.view = s.view :=
  ⟨⟨_, rfl⟩, rfl⟩

/-- An atom that is emptied. -/
theorem Ends.clear_blank (a : Atom κ) (l : Ledger κ) : Ends (LedgerM.clear a) l fun b _ => b = a.cleared :=
  rfl

end BinaryLayout
