/-!
# A Source to Work On

A program that holds one of nearly everything, right and wrong alike, followed
by as many copies of a few statements as wanted. It has two syntax errors, both
in its fixed part.
-/

namespace Compiscript.Workload

/-- The fixed part of the program. -/
def fixedLines : List String :=
  ["// header comment",
    "/* multiline",
    "   comment */",
    "const PI: integer = 3;",
    "const GREET = \"hi\";",
    "const BADC: integer = \"str\";",
    "let gflag: boolean = true;",
    "let gs: string = \"x\" + \"y\";",
    "let gnil = null;",
    "let gnone;",
    "let garr: integer[] = [1, 2, 3, 4];",
    "let gempty: integer[] = [];",
    "let gobj: Point;",
    "let gcls: MyClass;",
    "",
    "class Base \x7b",
    "  let color: string;",
    "  let color: string;",
    "  const TAG: string = \"b\";",
    "  const TAG2 = 7;",
    "  function constructor(c: string) \x7b this.color = c; \x7d",
    "  function paint(): string \x7b return this.color; \x7d",
    "  function paint(): string \x7b return this.color; \x7d",
    "\x7d",
    "",
    "class Point : Base \x7b",
    "  let nombre: string;",
    "  let edad: integer;",
    "  let grado: integer;",
    "  function constructor(n: string, e: integer) \x7b",
    "    this.nombre = n;",
    "    this.edad = e;",
    "    this.grado = 0;",
    "  \x7d",
    "  function bump(d: integer): integer \x7b",
    "    let tmp: integer = this.edad + d;",
    "    this.edad = tmp;",
    "    return this.edad;",
    "  \x7d",
    "  function name(): string \x7b return this.nombre; \x7d",
    "  function wrong(): integer \x7b return \"x\"; \x7d",
    "\x7d",
    "",
    "class Orphan : Missing \x7b let z: integer; \x7d",
    "class Point \x7b let dup: integer; \x7d",
    "",
    "function add(a: integer, b: integer): integer \x7b",
    "  let r: integer = a + b;",
    "  return r;",
    "\x7d",
    "",
    "function add(a: integer): integer \x7b return a; \x7d",
    "function noop() \x7b return; \x7d",
    "function dupe(a: integer, a: integer): integer \x7b return a; \x7d",
    "",
    "function fact(n: integer): integer \x7b",
    "  if (n <= 1) \x7b return 1; \x7d else \x7b return n * fact(n - 1); \x7d",
    "\x7d",
    "",
    "let p: Point = new Point(\"bob\", 7);",
    "let q: Point = new Point(\"bob\");",
    "let r: Point = new Point(1, 2);",
    "p.bump(3);",
    "p.bump(3, 4);",
    "p.bump(\"x\");",
    "p.nombre = \"bob\";",
    "p.nombre = 5;",
    "p.unknown = 5;",
    "gcls.nombre = 1;",
    "let nm: string = p.name();",
    "let chain: integer = p.edad + p.bump(1);",
    "let miss: integer = p.unknown;",
    "let deep: integer = p.bump(1) + p.color;",
    "printString(\"hello\");",
    "printInteger(42);",
    "toString(1);",
    "print(p.edad);",
    "print(\"literal\\n\");",
    "let sumc: integer = add(1, 2);",
    "let neg: integer = -sumc;",
    "let inv: boolean = !gflag;",
    "let ter: integer = gflag ? 1 : 2;",
    "let ter2: integer = 1 ? 1 : \"x\";",
    "let log: string = \"log\";",
    "let elem: integer = garr[0];",
    "let bidx: integer = garr[\"x\"];",
    "let nidx: integer = sumc[0];",
    "let mix = [1, true];",
    "let badadd: integer = 1 + true;",
    "let sstr: string = \"a\" - \"b\";",
    "let bad: integer = \"nope\";",
    "let relb: boolean = \"a\" < \"b\";",
    "let eqb: boolean = 1 == \"x\";",
    "let logb: boolean = 1 && true;",
    "let logb2: boolean = true || 1;",
    "let dupv: integer = 1;",
    "let dupv: integer = 2;",
    "const dupv: integer = 3;",
    "let u1: Unknown = new Unknown();",
    "u2 = 1;",
    "dupv = 5;",
    "(5).nombre = 1;",
    "break;",
    "continue;",
    "return 1;",
    "foreach (it in garr) \x7b print(it); break; continue; \x7d",
    "foreach (it in 5) \x7b print(it); \x7d",
    "try \x7b let tv: integer = 1; \x7d catch (err) \x7b let tv2: integer = 2; \x7d",
    "switch (sumc) \x7b",
    "  case 1: print(1);",
    "  case \"x\": print(2);",
    "  default: print(0);",
    "\x7d",
    "switch (\"bad\") \x7b case 1: print(1); \x7d",
    "if (1) \x7b print(1); \x7d",
    "while (1) \x7b break; \x7d",
    "do \x7b continue; \x7d while (1);",
    "for (let i: integer = 0; i < 3; i = i + 1) \x7b print(i); \x7d",
    "for (; ; ) \x7b break; \x7d",
    "\x7b return 1; print(1); \x7d",
    "let many: integer = 1 + 2 - 3 * 4 / 5 % 6;",
    "let rel: boolean = (1 < 2) && (3 >= 4) || (5 == 5) && (6 != 7);",
    "let rel2: boolean = (1 <= 2) || (3 > 4);",
    "let flo = 1.5;",
    "let flo2: float = 1.5;",
    "let sarr: string[] = [\"a\", \"b\"];",
    "let oarr: MyClass[];",
    "PI = 7;",
    "sumc = \"wrong\";",
    "p.TAG = \"z\";",
    "p.paint;",
    "let upc: integer = p.color;",
    "let callint: integer = sumc();",
    "let outer: Base = new Base(\"c\");",
    "outer.paint();",
    "let cc: integer = p.bump(1);",
    "let chainm = p.bump(1).nombre;",
    "let pidx: integer = p.edad;"]

/-- A number under ten signs in parentheses. Minus and not take turns, and the
    parity of `k` says which is the outermost. -/
def nested (k : Nat) : (depth : Nat) → String
  | 0 => "1"
  | d + 1 => (if (d + k) % 2 = 1 then "-" else "!") ++ "(" ++ nested k d ++ ")"

/-- The statements about the `k`-th variable. -/
def blockLines (k : Nat) : List String :=
  let v := "v" ++ toString k
  let n := toString k
  ["let " ++ v ++ ": integer = " ++ nested k 10 ++ ";",
    v ++ " = " ++ v ++ " + " ++ n ++ ";",
    "if (" ++ v ++ " > " ++ n ++ ") \x7b print(" ++ v ++ "); \x7d else \x7b print(" ++ n ++
      "); \x7d",
    "while (" ++ v ++ " < " ++ toString (k + 3) ++ ") \x7b " ++ v ++ " = " ++ v ++
      " + 1; if (" ++ v ++ " == " ++ n ++ ") \x7b break; \x7d \x7d"]

/-- The program with `n` repetitions. -/
def source (n : Nat) : String :=
  String.join ((fixedLines ++ (List.range n).flatMap blockLines).map (· ++ "\n"))

end Compiscript.Workload
