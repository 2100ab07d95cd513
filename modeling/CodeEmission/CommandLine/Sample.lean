/-! # The sample batch

A small batch that shows what can be written in a batch file.
-/

namespace CodeEmission.Batch

def sampleLines : List String :=
  ["# Functions to emit, in order. Relocations are resolved after the last one.",
    "",
    "[[module.globals]]",
    "id = 0",
    "name = \"counter\"",
    "ty = \"i64\"",
    "init = \x7b int = \x7b ty = \"i64\", value = 41 \x7d \x7d",
    "",
    "[symbols]",
    "host_log = 0x1000",
    "",
    "[[functions]]",
    "id = 0",
    "name = \"main\"",
    "constant_pool = [\x7b value = \x7b constant = \x7b f64 = 2.5 \x7d \x7d, align = 8 \x7d]",
    "jump_tables = \x7b kind = \"label_difference32\", tables = [\x7b targets = [1, 2] \x7d] \x7d",
    "",
    "[[functions.blocks]]",
    "number = 0",
    "insts = [",
    "    \x7b op = \"debug_loc\", line = 1, col = 1 \x7d,",
    "    \x7b op = \"load_const\", dst = \"rax\", index = 0 \x7d,",
    "    \x7b op = \"load_global\", dst = \"rdi\", global = \x7b variable = 0 \x7d \x7d,",
    "    \x7b op = \"call\", func = 1 \x7d,",
    "    \x7b op = \"call_symbol\", name = \"host_log\" \x7d,",
    "    \x7b op = \"lea_jump_table\", dst = \"r11\", index = 0 \x7d,",
    "    \x7b op = \"load_table_entry\", dst = \"rax\", table = \"r11\", index = \"rcx\" \x7d,",
    "    \x7b op = \"jmp_reg\", reg = \"rax\" \x7d,",
    "]",
    "",
    "[[functions.blocks]]",
    "number = 1",
    "insts = [\x7b op = \"mov_ri\", dst = \"rax\", imm = 1 \x7d, \x7b op = \"ret\" \x7d]",
    "",
    "[[functions.blocks]]",
    "number = 2",
    "insts = [\x7b op = \"mov_ri\", dst = \"rax\", imm = 2 \x7d, \x7b op = \"jmp\", target = 1 \x7d]",
    "",
    "[[functions]]",
    "id = 1",
    "name = \"helper\"",
    "",
    "[[functions.blocks]]",
    "number = 0",
    "insts = [\x7b op = \"label\", label = 0 \x7d, \x7b op = \"mov_ri\", dst = \"rax\", imm = 7 \x7d, \x7b op = \"ret\" \x7d]"]

def sample : String := String.join (sampleLines.map (· ++ "\n"))

end CodeEmission.Batch
